import TinyLisp.Proofs.Evaluation.Adequacy
import TinyLisp.Proofs.Evaluation.Kept
import TinyLisp.Proofs.Evaluation.Machine

/-!
Runs with their moves.  A run of the machine is kept together with every move that it made, so that
statements can be about all that happens on the way and not only about where a run ends.  Main
statements: `eval_passes` and `Passes.eval`, evaluations are the runs from an expression to an answer.
-/

namespace TinyLisp

open Evaluator
open Relation (ReflTransGen)

/-- One move of a run: the moments before and after it. -/
structure Move where
  before : Moment
  after : Moment

/-- A run from a moment to a moment with the moves it makes, the last one first. -/
inductive Passes (R : Moment → Moment → Prop) : Moment → List Move → Moment → Prop where
  | refl {m} : Passes R m [] m
  | tail {m moves m' m''} (h : Passes R m moves m') (hmove : R m' m'') :
      Passes R m (⟨m', m''⟩ :: moves) m''

namespace Passes

variable {R : Moment → Moment → Prop} {m m' m'' : Moment} {moves later : List Move}

theorem trans (h : Passes R m moves m') (h' : Passes R m' later m'') :
    Passes R m (later ++ moves) m'' := by
  induction h' with
  | refl => exact h
  | tail _ hmove ih => exact ih.tail hmove

theorem mono {R' : Moment → Moment → Prop} (hR : ∀ {m m'}, R m m' → R' m m')
    (h : Passes R m moves m') : Passes R' m moves m' := by
  induction h with
  | refl => exact .refl
  | tail _ hmove ih => exact ih.tail (hR hmove)

/-- There is a run exactly where moves lead. -/
theorem exists_iff_reflTransGen : (∃ moves, Passes R m moves m') ↔ ReflTransGen R m m' := by
  constructor
  · rintro ⟨_, h⟩
    induction h with
    | refl => exact .refl
    | tail _ hmove ih => exact ih.tail hmove
  · intro h
    induction h with
    | refl => exact ⟨[], .refl⟩
    | tail _ hmove ih =>
        obtain ⟨moves, h⟩ := ih
        exact ⟨_, h.tail hmove⟩

end Passes

/-- The moment at which the evaluation of an expression begins. -/
def Moment.begin (expr : Value) (env : EnvId) (s : State) : Moment :=
  ⟨.task (.expression expr env), [], s⟩

/-- The moment at which nothing is left but an answer. -/
def Moment.ending (r : Except Error Value) (s : State) : Moment :=
  ⟨.answer r, [], s⟩

section Evaluations

variable {expr : Value} {env : EnvId} {s t : State} {r : Except Error Value}

/-- An evaluation is a run to its result. -/
theorem eval_passes {depth rounds : Nat} (h : eval depth rounds expr env s = some (r, t)) :
    ∃ moves, Passes Transition (.begin expr env s) moves (.ending r t) :=
  Passes.exists_iff_reflTransGen.mpr ((eval_sound depth rounds expr env s r t h).transitions [])

/-- A run to a result is an evaluation within some budget. -/
theorem Passes.eval {moves : List Move}
    (h : Passes Transition (.begin expr env s) moves (.ending r t)) :
    ∃ depth rounds, Evaluator.eval depth rounds expr env s = some (r, t) := by
  have hderives := transitions_iff_derives.mp (exists_iff_reflTransGen.mp ⟨moves, h⟩)
  obtain ⟨n, hn⟩ := (eventually_eval (eventually_within hderives)).exists
  exact ⟨n, n, hn⟩

end Evaluations

/-! ### Relations that runs keep -/

section Steady

variable {R : State → State → Prop} (hR : State.Steady R) {task inner : Task}
  {pushed : List Frame} {s t : State} {r : Except Error Value} {m m' : Moment}

include hR

theorem State.Steady.trace (e : Event) (s : State) : R s (s.trace e) :=
  trace_keeps hR e s (.ok ()) _ rfl

theorem Task.Ends.steady (h : task.Ends s r t) : R s t := by
  cases h with
  | bound _ | free _ | constant _ _ | improper _ | unknown _ _ _ | rejected _ | notProcedure _ =>
      exact hR.trace _ s
  | malformed _ | quote _ | badFormals _ _ | badTarget _ _ | redefinition _ _ | noOperands _ =>
      exact hR.refl s
  | lambda _ _ => exact hR.trans _ _ _ (hR.newEnvironment _ s) (hR.make _)
  | currentEnvironment _ => exact hR.make s
  | toggleDebug _ => exact hR.trans _ _ _ (hR.make s) (hR.switch _ _)
  | @answered _ _ m _ _ args p h | @refused _ _ m _ args _ p h =>
      have hcall := hR.call p args (s.trace (.applying (.native m p) args))
      rw [h] at hcall
      exact hR.trans _ _ _ (hR.trace _ s) hcall

theorem Task.Enters.steady (h : task.Enters s inner pushed t) : R s t := by
  cases h with
  | named _ _ | keyword _ _ _ | computed _ _ => exact hR.trace _ s
  | define _ _ | test _ _ | call | operands => exact hR.refl s
  | body _ => exact hR.trans _ _ _ (hR.trace _ s) (hR.newEnvironment _ _)
  | @explicit _ _ m _ _ _ args p h =>
      have hcall := hR.call p args (s.trace (.applying (.native m p) args))
      rw [h] at hcall
      exact hR.trans _ _ _ (hR.trans _ _ _ (hR.trace _ s) hcall) (hR.switch false _)

theorem Frame.Resumes.steady {f : Frame} {control : Control}
    (h : f.Resumes r s control pushed t) : R s t := by
  cases h with
  | operator | arguments | element | consequent _ | alternate _ | definedMeanwhile _ | fails _ =>
      exact hR.refl s
  | prepend | noAlternate _ => exact hR.make s
  | define hfree => exact hR.trans _ _ _ (hR.bind _ _ _ s hfree) (hR.make _)
  | untraced => exact hR.switch _ s

/-- What every primitive act of evaluation keeps, every transition keeps. -/
theorem Transition.steady (h : Transition m m') : R m.state m'.state := by
  cases h with
  | ends h => exact h.steady hR
  | enters h => exact h.steady hR
  | resumes h => exact h.steady hR

end Steady

end TinyLisp
