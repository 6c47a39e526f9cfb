import TinyLisp.Proofs.Evaluation.Adequacy
import TinyLisp.Proofs.Evaluation.Machine
import TinyLisp.Proofs.Procedures.Confined

/-!
Situations: an interpreter from its start on, moment after moment.  Between two evaluations the
surroundings may change everything but the environments, and what they have evaluated next is put
together from data and from what they were answered before.  Main definition: `Reachable`, all that
an interpreter can come to from its start.  Main statements: `form_follows` and `define_follows`, what
whoever holds an environment can have done in it.
-/

namespace TinyLisp

open Evaluator Run
open Relation (ReflTransGen)

/-- The values that a task is about. -/
def Task.values : Task → List Value
  | .expression expr _ => [expr]
  | .form _ list _ => [list]
  | .call procedure list _ => [procedure, list]
  | .operands list _ => [list]
  | .application procedure args _ => [procedure, args]

/-- The environment that a task is worked at in. -/
def Task.env : Task → EnvId
  | .expression _ env => env
  | .form _ _ env => env
  | .call _ _ env => env
  | .operands _ env => env
  | .application _ _ env => env

namespace Frame

def values : Frame → List Value
  | operator operands _ => [operands]
  | arguments procedure _ => [procedure]
  | element rest _ => [rest]
  | prepend v => [v]
  | test consequent alternate _ => consequent :: alternate.toList
  | definition _ _ => []
  | untraced _ => []

/-- The environment that work will go on in. -/
def env? : Frame → Option EnvId
  | operator _ env => some env
  | arguments _ env => some env
  | element _ env => some env
  | prepend _ => none
  | test _ _ env => some env
  | definition _ env => some env
  | untraced _ => none

end Frame

namespace Control

def values : Control → List Value
  | task t => t.values
  | answer (.ok v) => [v]
  | answer (.error _) => []

def env? : Control → Option EnvId
  | task t => some t.env
  | answer _ => none

end Control

/-- An interpreter at a moment, and the answers it has given. -/
structure Situation where
  held : List Value
  moment : Moment

/-- What can be put together from data and from values that are held, looked into as far as pairs
and environments can be looked into. -/
inductive Value.Offered (s : State) (held : List Value) : Value → Prop where
  | held {v} (h : v ∈ held) : Offered s held v
  | plain {v} (h : v.isPlain = true) : Offered s held v
  | symbol (m x) : Offered s held (.symbol m x)
  | native (m p) : Offered s held (.native m p)
  | pair {m first rest} (hfirst : Offered s held first) (hrest : Offered s held rest) :
      Offered s held (.pair m first rest)
  | first {m first rest} (h : Offered s held (.pair m first rest)) : Offered s held first
  | rest {m first rest} (h : Offered s held (.pair m first rest)) : Offered s held rest
  | bound {m env x v} (henv : Offered s held (.environment m env))
      (h : s.lookup env x = some v) : Offered s held v

namespace Situation

abbrev state (σ : Situation) : State :=
  σ.moment.state

/-- The values at hand: those held and those in the work that is going on. -/
def values (σ : Situation) : List Value :=
  σ.held ++ (σ.moment.control.values ++ σ.moment.frames.flatMap Frame.values)

/-- The environments that code runs in, or will when an answer comes back. -/
def running (σ : Situation) : List EnvId :=
  σ.moment.control.env?.toList ++ σ.moment.frames.filterMap Frame.env?

/-- What comes next: a transition, or a new task once there is an answer for the last one. -/
inductive Next : Situation → Situation → Prop where
  | work {held m m'} (h : Transition m m') : Next ⟨held, m⟩ ⟨held, m'⟩
  | begins {held r s t task mark} (henvironments : t.environments = s.environments)
      (hvalues : ∀ v ∈ task.values, v.Offered t ((Control.answer r).values ++ held))
      (henv : (Value.environment mark task.env).Offered t ((Control.answer r).values ++ held)) :
      Next ⟨held, ⟨.answer r, [], s⟩⟩
        ⟨(Control.answer r).values ++ held, ⟨.task task, [], t⟩⟩

/-- An interpreter that was just started has its root environment to answer. -/
def start (files : FileSystem) (tracing : Bool) : Situation :=
  let made := State.initialEnvironment { State.initial files with tracing := tracing }
  ⟨[], ⟨.answer (.ok (.environment ⟨0⟩ made.1)), [], made.2⟩⟩

/-- An interpreter can get here from its start. -/
def Reachable (σ : Situation) : Prop :=
  ∃ files tracing, ReflTransGen Next (start files tracing) σ

theorem transitions_next {held : List Value} {m m' : Moment} (h : Transitions m m') :
    ReflTransGen Next ⟨held, m⟩ ⟨held, m'⟩ :=
  h.lift (Situation.mk held) fun _ _ => .work

/-- Whoever holds an environment can have a special form evaluated in it. -/
theorem form_follows {held : List Value} {last : Except Error Value} {s : State} {k : Keyword}
    {operands : Value} {env : EnvId} {mark : Mark}
    (henv : .environment mark env ∈ (Control.answer last).values ++ held)
    (hdata : operands.Offered s ((Control.answer last).values ++ held))
    (hlist : operands.isList = true) (hfree : s.lookup env k.name = none) :
    ReflTransGen Next ⟨held, ⟨.answer last, [], s⟩⟩
      ⟨(Control.answer last).values ++ held,
        ⟨.task (.form k operands env), [],
          s.trace (.evaluating (.pair ⟨0⟩ (.symbol ⟨0⟩ k.name) operands))⟩⟩ := by
  have hbegins : Next ⟨held, ⟨.answer last, [], s⟩⟩
      ⟨(Control.answer last).values ++ held,
        ⟨.task (.expression (.pair ⟨0⟩ (.symbol ⟨0⟩ k.name) operands) env), [], s⟩⟩ := by
    refine .begins rfl (fun v hv => ?_) (.held henv)
    rw [Task.values, List.mem_singleton] at hv
    rw [hv]
    exact .pair (.symbol ⟨0⟩ k.name) hdata
  exact .head hbegins (.single (.work (.enters (.keyword hlist hfree k.ofName?_name))))

/-- Whoever holds an environment can give a name that is free there a plain value. -/
theorem define_follows {held : List Value} {last : Except Error Value} {s : State} {env : EnvId}
    {mark : Mark} (henv : .environment mark env ∈ (Control.answer last).values ++ held)
    {x : String} {v : Value} (hplain : v.isPlain = true)
    (hkeyword : s.lookup env Keyword.define.name = none)
    (hfree : (s.bindings env).contains x = false) :
    ∃ held' last' t, ReflTransGen Next ⟨held, ⟨.answer last, [], s⟩⟩
      ⟨held', ⟨.answer last', [], t⟩⟩ ∧ t.environments = (s.bind env x v).environments := by
  let operands : Value := .pair ⟨0⟩ (.symbol ⟨0⟩ x) (.pair ⟨0⟩ v (.nil ⟨0⟩))
  let e : Event := .evaluating (.pair ⟨0⟩ (.symbol ⟨0⟩ Keyword.define.name) operands)
  have hdata : operands.Offered s ((Control.answer last).values ++ held) :=
    .pair (.symbol _ _) (.pair (.plain hplain) (.plain rfl))
  have hform := form_follows henv hdata rfl hkeyword
  obtain ⟨hsymbol, hpair⟩ := Value.constant_of_isPlain hplain
  have hvalue : (Task.expression v env).Derives (s.trace e) (.ok v)
      ((s.trace e).trace (.evaluating v)) := .ends (.constant hsymbol hpair)
  have hdefine : (Task.form .define operands env).Derives (s.trace e) _ _ :=
    .define rfl (by simpa using hfree) hvalue (by simpa using hfree)
  refine ⟨_, _, _, hform.trans (transitions_next (hdefine.transitions [])), ?_⟩
  simp [State.bind, State.setBindings]

section Programs

variable {i : Interpreter} {held : List Value} {s t : State}

theorem environments_makeDatum (d : Datum) (s : State) :
    (State.makeDatum d s).2.environments = s.environments :=
  (State.Undisturbed.makeDatum d s).environments

theorem offered_makeDatum (s t : State) (d : Datum) :
    (State.makeDatum d s).1.Offered t held := by
  induction d generalizing s with
  | symbol x => exact .symbol _ x
  | pair first rest ihFirst ihRest => exact .pair (ihFirst (State.makeDatum rest s).2) (ihRest s)
  | _ => exact .plain rfl

theorem start_eq {files : FileSystem} {tracing : Bool} {root : EnvId}
    (h : State.initialEnvironment { State.initial files with tracing := tracing } = (root, s)) :
    start files tracing = ⟨[], ⟨.answer (.ok (.environment ⟨0⟩ root)), [], s⟩⟩ := by
  rw [start, h]

/-- The interpreter and the state it starts in, without the work that makes them. -/
theorem interpreter_start {limits : Limits} {tracing : Bool}
    (h : Interpreter.start limits tracing s = (i, t)) :
    State.initialEnvironment { s with tracing := tracing } = (i.root, t) ∧
      i.evaluate = eval limits.depth limits.rounds := by
  unfold Interpreter.start at h
  generalize State.initialEnvironment = initialEnvironment at h ⊢
  cases h
  exact ⟨rfl, rfl⟩

theorem interpreter_start_eq {limits : Limits} {tracing : Bool}
    (h : Interpreter.start limits tracing s = (i, t)) :
    i = ⟨eval limits.depth limits.rounds, i.root, limits.rounds⟩ := by
  unfold Interpreter.start at h
  generalize State.initialEnvironment = initialEnvironment at h
  cases h
  rfl

end Programs

end Situation

end TinyLisp
