import Mathlib.Algebra.Group.Nat.Even
import TinyLisp.Proofs.Evaluation.Recursion

/-!
Tail calls.  Procedures that call each other in tail position, each with the number before its own,
go round in one loop: every turn makes an environment on top of the last one, in which all names but
the parameter mean what they meant, and evaluations nest no deeper for it.  Main statements:
`turn`, what one turn of the loop does, and `answers`, what the whole loop comes to.
-/

namespace TinyLisp

open Evaluator Run Text

variable {ι : Type}

/-- Procedures of one number that call each other in tail position.  About zero each has an answer
of its own; about any other number it asks the next one about the number before. -/
structure Countdown (ι : Type) extends Names ι where
  answer : ι → Datum
  next : ι → ι
  isConstant_answer : ∀ i, (answer i).isConstant = true

namespace Countdown

open Names (parameter)

/-- `(if (= n 0) answer (next (- n 1)))`. -/
def family (c : Countdown ι) : Family ι where
  toNames := c.toNames
  body i := .list [.symbol Keyword.ifForm.name,
    .list [.symbol Native.numberEq.name, .symbol parameter, .number 0],
    c.answer i,
    .list [.symbol (c.name (c.next i)),
      .list [.symbol Native.difference.name, .symbol parameter, .number 1]]]

variable {c : Countdown ι} {s : State} {env : EnvId} {expr body : Value} {i : ι} {k : Int}
  {depth rounds : Nat}

/-! ### Turns -/

section Turns

variable {defined : List ι}

/-- A question about zero is answered after two steps. -/
theorem finish (h : c.family.Asks defined s body env i 0) (more : Nat) :
    ∃ v t, drive (eval (depth + 2) rounds) (more + 2) (.pending body env) s = some (.ok v, t) ∧
      v.datum? = some (c.answer i) := by
  obtain ⟨_, t, hstep, _, answer, rfl, hanswer⟩ := h.finds_branch rfl
  obtain ⟨v, u, hdrive, _, hv⟩ := finds_drive_constant (c.isConstant_answer i) hanswer more
  refine ⟨v, u, ?_, hv⟩
  rw [drive, bind_apply, hstep]
  exact hdrive

/-- Any other question is put to the next procedure after two steps, which leave the loop where it
was. -/
theorem turn (h : c.family.Asks defined s body env i (k + 1)) (hk : 0 ≤ k)
    (hnext : c.next i ∈ defined) (more : Nat) :
    ∃ body' env' t,
      drive (eval (depth + 2) rounds) (more + 2) (.pending body env) s =
        drive (eval (depth + 2) rounds) more (.pending body' env') t ∧
      c.family.Asks defined t body' env' (c.next i) k := by
  obtain ⟨st, t, hstep, ht, call, rfl, hcall⟩ := h.finds_branch rfl
  rw [if_neg (by omega)] at hcall
  have hbefore : Evaluates (eval (depth + 2) rounds) env s _ _ := h.evaluates_before
  rw [Int.add_sub_cancel] at hbefore
  obtain ⟨body', env', u, hstep', hasks, _⟩ :=
    (h.hosts.of_environments ht).asks hnext (hbefore.of_environments ht) hcall
  refine ⟨body', env', u, ?_, hasks⟩
  rw [drive, bind_apply, hstep]
  simp only
  rw [drive, bind_apply, hstep']

/-- By induction on the number: whatever it is, the loop ends, and no evaluation in it nests deeper
than those of a single turn. -/
theorem answers {n : Nat} (h : c.family.Asks defined s body env i n)
    (hall : ∀ j, j ∈ defined) (more : Nat) :
    ∃ v t, drive (eval (depth + 2) rounds) (more + (2 * n + 2)) (.pending body env) s =
        some (.ok v, t) ∧ v.datum? = some (c.answer (c.next^[n] i)) := by
  induction n generalizing s body env i with
  | zero => exact finish h more
  | succ n ih =>
      obtain ⟨body', env', t, hturn, hasks⟩ :=
        turn h (Int.natCast_nonneg n) (hall (c.next i)) (more + (2 * n + 2))
      obtain ⟨v, u, hrun, hv⟩ := ih hasks
      refine ⟨v, u, ?_, hv⟩
      rw [← hrun, ← hturn]
      congr 1

/-- A question is answered, whatever the number. -/
theorem answers_question {n : Nat} (h : c.family.Hosts defined s env) (hall : ∀ j, j ∈ defined)
    (hexpr : expr.datum? = some (c.family.question i n)) (depth more : Nat) :
    ∃ v t, eval (depth + 3) (more + (2 * n + 2)) expr env s = some (.ok v, t) ∧
      v.datum? = some (c.answer (c.next^[n] i)) := by
  obtain ⟨body, env', t, hstep, hasks, _⟩ :=
    h.asks (hall i) (evaluates_constant rfl) hexpr
  obtain ⟨v, u, hrun, hv⟩ := answers hasks hall more
  refine ⟨v, u, ?_, hv⟩
  rw [eval, bind_apply, hstep]
  exact hrun

end Turns

/-- A program that defines all the procedures can be followed by any question. -/
theorem evaluates (c : Countdown ι) {order : List ι} (hnonempty : order ≠ []) (hnodup : order.Nodup)
    (hall : ∀ i, i ∈ order) {program : String}
    (hprogram : Contains program.toList (order.map c.family.definition) none) (i : ι) (n : Nat)
    (hrounds : order.length ≤ 2 * n + 2) (s : State) (tracing : Bool) :
    let start := Interpreter.start ⟨3, 2 * n + 3⟩ tracing s
    ∃ v t w u, start.1.evaluateText program start.2 = some (.ok v, t) ∧
      start.1.evaluateText ("(" ++ c.name i ++ " " ++ toString n ++ ")") t = some (.ok w, u) ∧
      w.datum? = some (c.answer (c.next^[n] i)) := by
  rcases hstart : Interpreter.start ⟨3, 2 * n + 3⟩ tracing s with ⟨interpreter, s₀⟩
  obtain ⟨v, t, _, w, u, hdefined, _, hanswered, hw⟩ := c.family.exists_answer hnonempty hnodup
    hprogram (Nat.lt_succ_of_le hrounds) hstart i n
    (P := fun _ w _ => w.datum? = some (c.answer (c.next^[n] i)))
    (fun t expr ht hexpr => by
      have hanswers := answers_question ht hall hexpr 0 1
      rwa [Nat.add_comm 1] at hanswers)
  exact ⟨v, t, w, u, hdefined, hanswered, hw⟩

end Countdown

/-- A single procedure that calls itself and ends with zero. -/
def countdown : Countdown Unit where
  name _ := "countdown"
  answer _ := .number 0
  next := id
  name_injective _ _ _ := rfl
  name_ne_parameter _ := by decide
  name_ne_native _ p := by cases p <;> decide
  name_ne_keyword _ k := by cases k <;> decide
  isName_name _ := by decide +kernel
  name_ne_dot _ := by decide
  isConstant_answer _ := rfl

/-- Two procedures that call each other, the first of which tells whether a number is even. -/
def parity : Countdown Bool where
  name b := if b then "even" else "odd"
  answer b := .boolean b
  next := not
  name_injective a b := by cases a <;> cases b <;> decide
  name_ne_parameter := by decide
  name_ne_native b p := by cases b <;> cases p <;> decide
  name_ne_keyword b k := by cases b <;> cases k <;> decide
  isName_name b := by cases b <;> decide +kernel
  name_ne_dot := by decide
  isConstant_answer _ := rfl

theorem iterate_not_true (n : Nat) : not^[n] true = decide (Even n) := by
  induction n with
  | zero => rfl
  | succ n ih =>
      rw [Function.iterate_succ_apply', ih, ← decide_not, decide_eq_decide]
      exact Nat.even_add_one.symm

theorem contains_countdown :
    Contains "(define countdown (lambda (n) (if (= n 0) 0 (countdown (- n 1)))))".toList
      ([()].map countdown.family.definition) none :=
  .of_readAll (by decide +kernel)

theorem contains_parity :
    Contains ("(define even (lambda (n) (if (= n 0) #t (odd (- n 1)))))" ++
      "(define odd (lambda (n) (if (= n 0) #f (even (- n 1)))))").toList
      ([true, false].map parity.family.definition) none :=
  .of_readAll (by decide +kernel)

/-- Calls in tail position do not nest: whatever the number, evaluations that may nest three deep
are enough to count down to zero and to tell even numbers from odd ones.  Only the rounds of the
loop grow with the number. -/
theorem tail_calls_do_not_nest (s : State) (tracing : Bool) (n : Nat) :
    let start := Interpreter.start ⟨3, 2 * n + 3⟩ tracing s
    (∃ v t m u,
      start.1.evaluateText "(define countdown (lambda (n) (if (= n 0) 0 (countdown (- n 1)))))"
        start.2 = some (.ok v, t) ∧
      start.1.evaluateText ("(countdown " ++ toString n ++ ")") t = some (.ok (.number m 0), u)) ∧
    ∃ v t m u,
      start.1.evaluateText ("(define even (lambda (n) (if (= n 0) #t (odd (- n 1)))))" ++
        "(define odd (lambda (n) (if (= n 0) #f (even (- n 1)))))") start.2 = some (.ok v, t) ∧
      start.1.evaluateText ("(even " ++ toString n ++ ")") t =
        some (.ok (.boolean m (decide (Even n))), u) := by
  intro start
  constructor
  · obtain ⟨v, t, w, u, hdefined, hanswered, hw⟩ :=
      countdown.evaluates (by simp) (by simp) (by simp) contains_countdown () n (by simp) s tracing
    obtain ⟨m, rfl⟩ := Value.datum?_eq_number hw
    exact ⟨v, t, m, u, hdefined, hanswered⟩
  · obtain ⟨v, t, w, u, hdefined, hanswered, hw⟩ :=
      parity.evaluates (by simp) (by simp) (by simp) contains_parity true n (by simp) s tracing
    obtain ⟨m, rfl⟩ := Value.datum?_eq_boolean hw
    rw [show parity.next^[n] true = decide (Even n) from iterate_not_true n] at hanswered
    exact ⟨v, t, m, u, hdefined, hanswered⟩

end TinyLisp
