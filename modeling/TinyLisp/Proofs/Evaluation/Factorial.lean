import Mathlib.Data.Nat.Factorial.Basic
import TinyLisp.Proofs.Evaluation.Recursion

/-!
Calls that are not in tail position.  The factorial of a number is the number times the factorial of
the number before: each call is an evaluation inside the one that asked, in an environment on top of
the last one, and the environments of the callers are as they were when its answer is there.  Main
statement: `factorial.answers`, by induction on the number.
-/

namespace TinyLisp

open Evaluator Run Text

open Names (parameter)

/-- `(define fact (lambda (n) (if (= n 0) 1 (* n (fact (- n 1))))))`. -/
def factorial : Family Unit where
  name _ := "fact"
  body _ := .list [.symbol Keyword.ifForm.name,
    .list [.symbol Native.numberEq.name, .symbol parameter, .number 0],
    .number 1,
    .list [.symbol Native.product.name, .symbol parameter,
      .list [.symbol "fact",
        .list [.symbol Native.difference.name, .symbol parameter, .number 1]]]]
  name_injective _ _ _ := rfl
  name_ne_parameter _ := by decide
  name_ne_native _ p := by cases p <;> decide
  name_ne_keyword _ k := by cases k <;> decide
  isName_name _ := by decide +kernel
  name_ne_dot _ := by decide

namespace factorial

variable {s : State} {body expr : Value} {env : EnvId} {k r : Int} {depth rounds : Nat}

/-- About zero the answer is one. -/
theorem finish (h : factorial.Asks [()] s body env () 0) (more : Nat) :
    (drive (eval (depth + 2) rounds) (more + 2) (.pending body env)).Returns s
      (·.datum? = some (.number 1)) := by
  refine (h.finds_branch rfl).returns.bind fun _ t _ hbranch => ?_
  obtain ⟨one, rfl, hone⟩ := hbranch
  exact (finds_drive_constant rfl hone more).returns

/-- About any other number the answer is its product with the answer about the number before, which
is asked for one evaluation deeper. -/
theorem turn (h : factorial.Asks [()] s body env () (k + 1)) (hk : 0 ≤ k)
    (hask : ∀ body' env' t, factorial.Asks [()] t body' env' () k →
      (drive (eval (depth + 2) rounds) rounds (.pending body' env')).Returns t
        (·.datum? = some (.number r))) (more : Nat) :
    (drive (eval (depth + 3) rounds) (more + 2) (.pending body env)).Returns s
      (·.datum? = some (.number ((k + 1) * r))) := by
  refine (h.finds_branch rfl).returns.bind fun _ t ht hbranch => ?_
  obtain ⟨product, rfl, hproduct⟩ := hbranch
  rw [if_neg (by omega)] at hproduct
  have hnumber : Answers (eval (depth + 3) rounds) env t (.symbol parameter) (.number (k + 1)) := by
    intro expr u hu hexpr
    obtain ⟨v, hlookup, hv⟩ := (h.of_preserves (ht.trans hu)).number
    exact (evaluates_symbol hlookup hv expr u rfl hexpr).returns
  have hbefore : Answers (eval (depth + 3) rounds) env t (.list [.symbol (factorial.name ()),
      .list [.symbol Native.difference.name, .symbol parameter, .number 1]]) (.number r) := by
    intro expr u hu hexpr
    have hasks := h.of_preserves (ht.trans hu)
    have hoperand : Evaluates (eval (depth + 2) rounds) env u _ _ := hasks.evaluates_before
    rw [Int.add_sub_cancel] at hoperand
    exact hasks.hosts.returns_call List.mem_cons_self hoperand hexpr hask
  obtain ⟨m, hm⟩ := (h.of_preserves ht).hosts.native .product
  have hstep := returns_step hm (.cons hnumber (.cons hbefore .nil))
    (Procedures.answers_product (k + 1) r) hproduct
  refine hstep.bind fun _ u _ hdone => ?_
  obtain ⟨v, rfl, hv⟩ := hdone
  exact ⟨v, u, by rw [drive_done]; rfl, .of_environments rfl, hv⟩

/-- By induction on the number, which is how deep the evaluations nest: every answer is there before
the product is made that needs it. -/
theorem answers {n : Nat} (h : factorial.Asks [()] s body env () n) (depth more : Nat) :
    (drive (eval (depth + n + 2) (more + 2)) (more + 2) (.pending body env)).Returns s
      (·.datum? = some (.number n.factorial)) := by
  induction n generalizing s body env with
  | zero => exact finish h more
  | succ n ih =>
      rw [Nat.factorial_succ, Int.natCast_mul, Int.natCast_succ]
      exact turn h (Int.natCast_nonneg n) (fun _ _ _ hasks => ih hasks) more

end factorial

theorem contains_factorial :
    Contains "(define fact (lambda (n) (if (= n 0) 1 (* n (fact (- n 1))))))".toList
      ([()].map factorial.definition) none :=
  .of_readAll (by decide +kernel)

/-- Recursion that is not in tail position computes what it says: as long as evaluations may nest
deep enough, the factorial of every natural number is found, and the bindings of the root
environment are those from before. -/
theorem recursion_computes_factorial (s : State) (tracing : Bool) (n depth more : Nat) :
    let start := Interpreter.start ⟨depth + n + 3, more + 2⟩ tracing s
    ∃ v t m u,
      start.1.evaluateText "(define fact (lambda (n) (if (= n 0) 1 (* n (fact (- n 1))))))"
        start.2 = some (.ok v, t) ∧
      start.1.evaluateText ("(fact " ++ toString n ++ ")") t =
        some (.ok (.number m n.factorial), u) ∧
      u.bindings start.1.root = t.bindings start.1.root := by
  rcases hstart : Interpreter.start ⟨depth + n + 3, more + 2⟩ tracing s with ⟨interpreter, s₀⟩
  obtain ⟨v, t, t', w, u, hdefined, ht', hanswered, hw, hsame⟩ :=
    factorial.exists_answer (List.cons_ne_nil _ _) (by simp) contains_factorial
    (Nat.succ_lt_succ (Nat.succ_pos more)) hstart () n
    (P := fun t w u => w.datum? = some (.number n.factorial) ∧
      u.bindings interpreter.root = t.bindings interpreter.root)
    (fun t expr ht hexpr => by
      obtain ⟨w, u, hrun, hu, hw⟩ := ht.returns_call List.mem_cons_self (evaluates_constant rfl)
        hexpr fun _ _ _ hasks => factorial.answers hasks depth more
      exact ⟨w, u, hrun, hw, hu.bindings_eq _ ht.lt⟩)
  obtain ⟨m, rfl⟩ := Value.datum?_eq_number hw
  refine ⟨v, t, m, u, hdefined, hanswered, hsame.trans ?_⟩
  rw [State.bindings, ht', State.bindings]

end TinyLisp
