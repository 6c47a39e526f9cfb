import TinyLisp.Proofs.Environments.Growth
import TinyLisp.Proofs.Evaluation.Equations

/-!
Definitions are all or nothing.  A definition asks twice whether its name is free, before its value is
computed and after, and touches the environment only when both answers are yes.  Main statement:
`define_is_atomic`, what a definition answers and leaves in every case.
-/

namespace TinyLisp

open Evaluator Run

/-- The state when the value of a name that is still free has come. -/
def State.defined (s : State) (env : EnvId) (x : String) (v : Value) : State :=
  (s.bind env x v).marked

/-- A definition that succeeds binds its name, and nothing else. -/
theorem State.lookup_defined {s : State} {env : EnvId} (h : env.index < s.environments.size)
    (x : String) (v : Value) (other : EnvId) (y : String) :
    (s.defined env x v).lookup other y =
      if env = other ∧ y = x then some v else s.lookup other y :=
  lookup_bind s env other x y v h

namespace Evaluator

section Define

variable {s : State} {env : EnvId} {m m' mark : Mark} {x : String} {e operands : Value}
  (hlist : operands.isList = true) (hoperands : operands.elements = [.symbol mark x, e])
  (hdefine : s.lookup env Keyword.define.name = none)

include hlist hoperands hdefine

/-- Where the name is bound, nothing is asked of the evaluator of nested expressions. -/
theorem step_define_bound (hbound : (s.bindings env).contains x = true) (ev : Evaluation) :
    step ev (.pair m (.symbol m' Keyword.define.name) operands) env s =
      some (.error (.redefinition x),
        s.trace (.evaluating (.pair m (.symbol m' Keyword.define.name) operands))) := by
  rw [step_keyword hlist hdefine (Keyword.ofName?_name .define)]
  exact form_redefinition hoperands (by simpa using hbound)

/-- Where the name is free, its value is computed first, and the name has to be free then. -/
theorem step_define_free (hfree : (s.bindings env).contains x = false) (ev : Evaluation) :
    step ev (.pair m (.symbol m' Keyword.define.name) operands) env s =
      (ev e env >>= commit x env)
        (s.trace (.evaluating (.pair m (.symbol m' Keyword.define.name) operands))) := by
  rw [step_keyword hlist hdefine (Keyword.ofName?_name .define)]
  exact form_define hoperands (by simpa using hfree)

end Define

end Evaluator

/-- A definition `(define x e)` in an environment where `define` is no name of something else.
If `x` is bound, the definition is refused, whatever evaluator `e` would be given to, and nothing has
happened but the report of the definition when tracing is on.  If `x` is free, everything is up to
`e`: its error is the error of the definition and its state the state left; when it comes to a value
after `x` was bound meanwhile, the definition is refused and the state is the one that `e` left; and
otherwise `x` has that value and every name of every environment besides is as `e` left it.  The
definition comes to an end exactly if `e` does. -/
theorem define_is_atomic (m m' : Mark) {s : State} {env : EnvId} {mark : Mark} {x : String}
    {e operands : Value} (hlist : operands.isList = true)
    (hoperands : operands.elements = [.symbol mark x, e])
    (hdefine : s.lookup env Keyword.define.name = none) (henv : env.index < s.environments.size) :
    let expr : Value := .pair m (.symbol m' Keyword.define.name) operands
    let begun : State := if s.tracing then s.report (.evaluating expr) else s
    ((s.bindings env).contains x = true →
      (∀ ev, step ev expr env s = some (.error (.redefinition x), begun)) ∧
      ∀ depth rounds,
        eval (depth + 1) rounds expr env s = some (.error (.redefinition x), begun)) ∧
    ((s.bindings env).contains x = false → ∀ depth rounds,
      (eval depth rounds e env begun = none → eval (depth + 1) rounds expr env s = none) ∧
      (∀ cause t, eval depth rounds e env begun = some (.error cause, t) →
        eval (depth + 1) rounds expr env s = some (.error cause, t)) ∧
      ∀ v t, eval depth rounds e env begun = some (.ok v, t) →
        ((t.bindings env).contains x = true →
          eval (depth + 1) rounds expr env s = some (.error (.redefinition x), t)) ∧
        ((t.bindings env).contains x = false →
          eval (depth + 1) rounds expr env s =
            some (.ok (.unspecified ⟨t.nextMark⟩), t.defined env x v) ∧
          ∀ other y, (t.defined env x v).lookup other y =
            if env = other ∧ y = x then some v else t.lookup other y)) := by
  intro expr begun
  have hbegun : s.trace (.evaluating expr) = begun := rfl
  refine ⟨fun hbound => ?_, fun hfree depth rounds => ?_⟩
  · have hstep : ∀ ev, step ev expr env s = some (.error (.redefinition x), begun) :=
      step_define_bound hlist hoperands hdefine hbound
    refine ⟨hstep, fun depth rounds => ?_⟩
    rw [eval, bind_apply, hstep]
  · have hstep : step (eval depth rounds) expr env s =
        (eval depth rounds e env >>= commit x env) begun :=
      step_define_free hlist hoperands hdefine hfree _
    rw [bind_apply] at hstep
    rw [eval, bind_apply, hstep]
    refine ⟨fun hnone => by rw [hnone], fun cause t hfails => by rw [hfails], fun v t hvalue => ?_⟩
    rw [hvalue]
    refine ⟨fun hbound => ?_, fun hstill => ⟨?_, ?_⟩⟩
    · simp only [commit_bound hbound]
    · simp only [commit_free hstill, drive_done, pure_apply]
      rfl
    · have hgrows := eval_keeps State.extends_steady depth rounds e env begun _ t hvalue
      have hsize : begun.environments.size = s.environments.size := by
        rw [← hbegun, State.environments_trace]
      exact State.lookup_defined (by have := hgrows.size_le; omega) x v

/-- `(define y x)` binds `y`; so `(define y (define y x))` is refused after its value has come, with
`y` bound by the inner definition, and from then on it is refused at once. -/
theorem define_is_atomic_twice :
    let form (e : Value) : Value :=
      .pair ⟨0⟩ (.symbol ⟨0⟩ "define") (.pair ⟨0⟩ (.symbol ⟨0⟩ "y") (.pair ⟨0⟩ e (.nil ⟨0⟩)))
    let inner := form (.symbol ⟨0⟩ "x")
    let t := State.fiveAtX.defined ⟨0⟩ "y" (.number ⟨0⟩ 5)
    eval 2 2 inner ⟨0⟩ .fiveAtX = some (.ok (.unspecified ⟨0⟩), t) ∧
      t.lookup ⟨0⟩ "y" = some (.number ⟨0⟩ 5) ∧
      eval 3 2 (form inner) ⟨0⟩ .fiveAtX = some (.error (.redefinition "y"), t) ∧
      eval 1 2 (form inner) ⟨0⟩ t = some (.error (.redefinition "y"), t) := by
  intro form inner t
  have hatomic {e : Value} {s : State} (hs : s.lookup ⟨0⟩ "define" = none)
      (hsize : 0 < s.environments.size) :=
    define_is_atomic ⟨0⟩ ⟨0⟩ (show Value.isList
        (.pair ⟨0⟩ (.symbol ⟨0⟩ "y") (.pair ⟨0⟩ e (.nil ⟨0⟩))) = true from rfl) rfl hs hsize
  have hinner := ((hatomic (s := .fiveAtX) rfl (by decide)).2 rfl 1 2).2.2 (.number ⟨0⟩ 5)
    .fiveAtX (show eval 1 2 (.symbol ⟨0⟩ "x") ⟨0⟩ .fiveAtX = _ from rfl)
  obtain ⟨hvalue, hlookup⟩ := hinner.2 rfl
  refine ⟨hvalue, hlookup ⟨0⟩ "y", ?_, ?_⟩
  · exact (((hatomic (s := .fiveAtX) rfl (by decide)).2 rfl 2 2).2.2 _ t hvalue).1 rfl
  · exact ((hatomic (s := t) rfl (by decide)).1 rfl).2 0 2

end TinyLisp
