import Mathlib.Algebra.Ring.Parity
import Mathlib.Data.List.TakeWhile
import Mathlib.Logic.Function.Iterate
import TinyLisp.Proofs.Evaluation.Passage
import TinyLisp.Proofs.Procedures.Unseen

/-!
Tracing.  Every call of `eval` has a switch of its own, off at first, that only its own `toggle-debug`
forms turn; the switch decides what is reported and nothing else.  Main statement:
`tracing_does_not_interfere`.
-/

namespace TinyLisp

open Evaluator

/-! ### Switches and traces -/

/-- Whether a task is a `toggle-debug` form that will be executed. -/
def Task.isToggle : Task → Bool
  | .form .toggleDebug list _ => list.elements.isEmpty
  | _ => false

/-- What is traced when a task is taken up. -/
def Task.traces : Task → List Event
  | .expression expr _ => [.evaluating expr]
  | .application procedure args _ => [.applying procedure args]
  | _ => []

/-- The switch that an untraced evaluation gives back when it ends. -/
def Frame.saved? : Frame → Option Bool
  | .untraced tracing => some tracing
  | _ => none

namespace Moment

/-- The switches of the evaluators that wait for the one at work, the innermost first. -/
def saved (m : Moment) : List Bool :=
  m.frames.filterMap Frame.saved?

/-- How many calls of `eval` the evaluator at work is inside of. -/
def level (m : Moment) : Nat :=
  m.saved.length

def isToggle (m : Moment) : Bool :=
  match m.control with
  | .task task => task.isToggle
  | .answer _ => false

/-- The traces that are reported at a moment. -/
def records (m : Moment) : List Event :=
  match m.control with
  | .task task => if m.state.tracing then task.traces else []
  | .answer _ => []

end Moment

/-- How many `toggle-debug` forms the evaluator at a level has executed since it began, in a run with
the given moves, the last one first. -/
def toggles (level : Nat) (moves : List Move) : Nat :=
  ((moves.map Move.before).takeWhile fun m => level ≤ m.level).countP
    fun m => m.level == level && m.isToggle

section Steps

variable {task inner : Task} {pushed : List Frame} {s t : State} {r : Except Error Value}
  {f : Frame} {control : Control} {m m' : Moment}

theorem State.traces_trace (e : Event) (he : e.isTrace = true) (s : State) :
    (s.trace e).events.filter Event.isTrace =
      (if s.tracing then [e] else []) ++ s.events.filter Event.isTrace := by
  unfold State.trace
  split <;> simp [State.report, he]

theorem Task.isToggle_of_malformed {k : Keyword} {operands : Value} {env : EnvId}
    (h : k.admits operands.elements.length = false) :
    Task.isToggle (.form k operands env) = false := by
  cases k with
  | toggleDebug =>
      rw [Task.isToggle, List.isEmpty_eq_false_iff]
      intro hnil
      rw [hnil] at h
      cases h
  | _ => rfl

/-- Only a `toggle-debug` form turns the switch, and a task that ends has traced itself alone. -/
theorem Task.Ends.traces (h : task.Ends s r t) :
    t.tracing = (task.isToggle ^^ s.tracing) ∧
      t.events.filter Event.isTrace =
        (if s.tracing then task.traces else []) ++ s.events.filter Event.isTrace := by
  cases h with
  | bound _ | free _ | constant _ _ | improper _ | unknown _ _ _ | rejected _ | notProcedure _ =>
      exact ⟨(State.tracing_trace _ s).trans (Bool.false_xor _).symm, State.traces_trace _ rfl s⟩
  | @answered _ _ m _ _ args p h | @refused _ _ m _ args _ p h =>
      have hcall := Procedures.call_oblivious p args
      have htracing := hcall.tracing (s.trace (.applying (.native m p) args))
      have htraces := hcall.traces (s.trace (.applying (.native m p) args))
      rw [h] at htracing htraces
      rw [State.tracing_trace] at htracing
      rw [State.traces_trace _ rfl] at htraces
      exact ⟨htracing.trans (Bool.false_xor _).symm, htraces⟩
  | @toggleDebug _ env list h =>
      have htoggle : Task.isToggle (.form .toggleDebug list env) = true := List.isEmpty_iff.mpr h
      rw [htoggle]
      exact ⟨(Bool.true_xor _).symm, by simp [Task.traces, State.marked]⟩
  | noOperands _ => exact ⟨(Bool.false_xor _).symm, by simp [Task.traces]⟩
  | malformed h =>
      rw [Task.isToggle_of_malformed h]
      exact ⟨(Bool.false_xor _).symm, by simp [Task.traces]⟩
  | _ => exact ⟨(Bool.false_xor _).symm, by simp [Task.traces, State.grown, State.marked]⟩

/-- Work that goes on as other work stays with its evaluator, or begins an untraced evaluation. -/
theorem Task.Enters.traces (h : task.Enters s inner pushed t) :
    task.isToggle = false ∧
      ((pushed.filterMap Frame.saved? = [] ∧ t.tracing = s.tracing) ∨
        (pushed = [.untraced s.tracing] ∧ t.tracing = false)) ∧
      t.events.filter Event.isTrace =
        (if s.tracing then task.traces else []) ++ s.events.filter Event.isTrace := by
  cases h with
  | named _ _ | keyword _ _ _ | computed _ _ | body _ =>
      exact ⟨rfl, .inl ⟨rfl, State.tracing_trace _ s⟩, State.traces_trace _ rfl s⟩
  | define _ _ | test _ _ | call | operands =>
      exact ⟨rfl, .inl ⟨rfl, rfl⟩, by simp [Task.traces]⟩
  | @explicit _ _ m _ _ _ args p h =>
      have hcall := Procedures.call_oblivious p args
      have htracing := hcall.tracing (s.trace (.applying (.native m p) args))
      have htraces := hcall.traces (s.trace (.applying (.native m p) args))
      rw [h] at htracing htraces
      rw [State.tracing_trace] at htracing
      rw [State.traces_trace _ rfl] at htraces
      exact ⟨rfl, .inr ⟨by rw [htracing], rfl⟩, htraces⟩

/-- An answer stays with its evaluator, or ends an untraced evaluation; nothing is traced. -/
theorem Frame.Resumes.traces (h : f.Resumes r s control pushed t) :
    ((f.saved? = none ∧ pushed.filterMap Frame.saved? = [] ∧ t.tracing = s.tracing) ∨
        (f = .untraced t.tracing ∧ pushed = [])) ∧
      t.events = s.events := by
  cases h with
  | untraced => exact ⟨.inr ⟨rfl, rfl⟩, rfl⟩
  | fails h =>
      refine ⟨.inl ⟨?_, rfl, rfl⟩, rfl⟩
      cases f with
      | untraced => cases h
      | _ => rfl
  | _ => exact ⟨.inl ⟨rfl, rfl, rfl⟩, rfl⟩

/-- What a transition does to the switches: it stays with the evaluator at work, which may turn its
own, it begins an evaluation with its switch off, or it ends one. -/
inductive Shifts (m m' : Moment) : Prop where
  | stays (hsaved : m'.saved = m.saved)
      (htracing : m'.state.tracing = (m.isToggle ^^ m.state.tracing))
  | begins (htoggle : m.isToggle = false) (hsaved : m'.saved = m.state.tracing :: m.saved)
      (htracing : m'.state.tracing = false)
  | ends (htoggle : m.isToggle = false) (hsaved : m.saved = m'.state.tracing :: m'.saved)

theorem Transition.shifts (h : Transition m m') : Shifts m m' := by
  cases h with
  | ends h => exact .stays rfl h.traces.1
  | enters h =>
      obtain ⟨htoggle, ⟨hpushed, htracing⟩ | ⟨rfl, htracing⟩, _⟩ := h.traces
      · refine .stays ?_ ?_
        · simp [Moment.saved, hpushed]
        · change _ = (Task.isToggle _ ^^ _)
          rw [htoggle, Bool.false_xor]
          exact htracing
      · exact .begins htoggle rfl htracing
  | resumes h =>
      obtain ⟨⟨hf, hpushed, htracing⟩ | ⟨rfl, rfl⟩, _⟩ := h.traces
      · refine .stays ?_ ?_
        · simp [Moment.saved, hf, hpushed]
        · exact htracing.trans (Bool.false_xor _).symm
      · exact .ends rfl rfl

/-- A transition reports the traces of the moment it starts from. -/
theorem Transition.records (h : Transition m m') :
    m'.state.events.filter Event.isTrace =
      m.records ++ m.state.events.filter Event.isTrace := by
  cases h with
  | ends h => exact h.traces.2
  | enters h => exact h.traces.2.2
  | resumes h => exact congrArg _ h.traces.2

end Steps

/-! ### Switches along a run -/

section Runs

variable {m m' : Moment} {moves : List Move} {level : Nat}

theorem toggles_cons_of_lt (h : m.level < level) : toggles level (⟨m, m'⟩ :: moves) = 0 := by
  simp [toggles, Nat.not_le.mpr h]

theorem toggles_cons_of_le (h : level ≤ m.level) :
    toggles level (⟨m, m'⟩ :: moves) =
      toggles level moves + if m.level == level && m.isToggle then 1 else 0 := by
  simp [toggles, h, List.countP_cons]

/-- The switches of the evaluator at a level and of those below it, after a run with some moves. -/
def switches (first : Bool) (moves : List Move) : Nat → List Bool
  | 0 => [not^[toggles 0 moves] first]
  | level + 1 => not^[toggles (level + 1) moves] false :: switches first moves level

/-- A move that is not the execution of a `toggle-debug` form at a level turns no switch there. -/
theorem switches_cons {first : Bool} (h : level ≤ m.level)
    (htoggle : (m.level == level && m.isToggle) = false) :
    switches first (⟨m, m'⟩ :: moves) level = switches first moves level := by
  induction level with
  | zero =>
      rw [switches, switches, toggles_cons_of_le h, htoggle]
      rfl
  | succ level ih =>
      have hlower : (m.level == level && m.isToggle) = false := by
        have hne : (m.level == level) = false := beq_eq_false_iff_ne.mpr (by omega)
        rw [hne, Bool.false_and]
      rw [switches, switches, toggles_cons_of_le h, htoggle, ih (by omega) hlower]
      rfl

/-- A `toggle-debug` form turns the switch of the evaluator at work. -/
theorem switches_cons_self {first b : Bool} {bs : List Bool} (htoggle : m.isToggle = true)
    (h : switches first moves m.level = b :: bs) :
    switches first (⟨m, m'⟩ :: moves) m.level = (!b) :: bs := by
  have hcount : (m.level == m.level && m.isToggle) = true := by simp [htoggle]
  cases hlevel : m.level with
  | zero =>
      rw [hlevel] at h hcount
      rw [switches] at h ⊢
      rw [toggles_cons_of_le (Nat.zero_le _), hlevel, hcount, if_pos rfl,
        Function.iterate_succ_apply']
      cases h
      rfl
  | succ level =>
      have hlower : (m.level == level && m.isToggle) = false := by simp [hlevel]
      rw [hlevel] at h hcount
      rw [switches] at h ⊢
      rw [toggles_cons_of_le (Nat.le_of_eq hlevel.symm), hlevel, hcount, if_pos rfl,
        Function.iterate_succ_apply', switches_cons (by omega) hlower]
      cases h
      rfl

/-- In every run each switch has been turned as often as its evaluator executed `toggle-debug`. -/
theorem Passes.switches_eq {expr : Value} {env : EnvId} {s : State}
    (h : Passes Transition (.begin expr env s) moves m) :
    m.state.tracing :: m.saved = switches s.tracing moves m.level := by
  induction h with
  | refl => rfl
  | @tail moves before after h hmove ih =>
      cases hmove.shifts with
      | stays hsaved htracing =>
          have hlevel : after.level = before.level := congrArg List.length hsaved
          rw [hlevel, hsaved, htracing]
          cases htoggle : before.isToggle with
          | true => rw [switches_cons_self htoggle ih.symm, Bool.true_xor]
          | false =>
              rw [switches_cons (Nat.le_refl _) (by rw [htoggle, Bool.and_false]), ← ih,
                Bool.false_xor]
      | begins htoggle hsaved htracing =>
          have hlevel : after.level = before.level + 1 := congrArg List.length hsaved
          rw [hlevel, hsaved, htracing, switches, toggles_cons_of_lt (Nat.lt_succ_self _),
            switches_cons (Nat.le_refl _) (by rw [htoggle, Bool.and_false]), ← ih]
          rfl
      | ends htoggle hsaved =>
          have hlevel : before.level = after.level + 1 := congrArg List.length hsaved
          rw [hsaved, hlevel, switches] at ih
          rw [switches_cons (by omega) (by rw [htoggle, Bool.and_false])]
          exact (List.cons.inj ih).2

/-- The switch of the evaluator at work has been turned as often as it executed `toggle-debug`; it was
off at first inside of a call of `eval`. -/
theorem Passes.tracing_eq {expr : Value} {env : EnvId} {s : State}
    (h : Passes Transition (.begin expr env s) moves m) :
    m.state.tracing = not^[toggles m.level moves] (m.level == 0 && s.tracing) := by
  have hswitches := h.switches_eq
  cases hlevel : m.level with
  | zero =>
      rw [hlevel, switches] at hswitches
      exact (List.cons.inj hswitches).1
  | succ level =>
      rw [hlevel, switches] at hswitches
      exact (List.cons.inj hswitches).1

/-- What has been traced are the records of the moments of the run. -/
theorem Passes.records (h : Passes Transition m moves m') :
    m'.state.events.filter Event.isTrace =
      moves.flatMap (fun move => move.before.records) ++ m.state.events.filter Event.isTrace := by
  induction h with
  | refl => rfl
  | tail _ hmove ih => rw [hmove.records, ih, List.flatMap_cons, List.append_assoc]

/-- A run up to one of its moves. -/
theorem Passes.before {R : Moment → Moment → Prop} {later earlier : List Move} {move : Move}
    (h : Passes R m (later ++ move :: earlier) m') : Passes R m earlier move.before := by
  induction later generalizing m' with
  | nil =>
      cases h with
      | tail h _ => exact h
  | cons last later ih =>
      cases h with
      | tail h _ => exact ih h

theorem toggles_zero_eq_zero_iff :
    toggles 0 moves = 0 ↔
      ∀ move ∈ moves, (move.before.level == 0 && move.before.isToggle) = false := by
  have hall : (moves.map Move.before).takeWhile (fun m => 0 ≤ m.level) = moves.map Move.before := by
    rw [List.takeWhile_eq_self_iff]
    simp
  rw [toggles, hall, List.countP_eq_zero]
  simp

end Runs

/-! ### Two runs -/

/-- Stacks of two runs that are equal but for the switch of the outermost evaluator, given the
switches of the evaluators at work. -/
inductive Relit : Bool → Bool → List Frame → List Frame → Prop where
  | nil (p q) : Relit p q [] []
  | frame {p q f fs fs'} (hf : f.saved? = none) (h : Relit p q fs fs') :
      Relit p q (f :: fs) (f :: fs')
  | untraced {p b b' fs fs'} (h : Relit b b' fs fs') :
      Relit p p (.untraced b :: fs) (.untraced b' :: fs')

namespace Relit

variable {p q : Bool} {fs fs' : List Frame}

theorem append {pushed : List Frame} (hpushed : pushed.filterMap Frame.saved? = [])
    (h : Relit p q fs fs') : Relit p q (pushed ++ fs) (pushed ++ fs') := by
  induction pushed with
  | nil => exact h
  | cons f pushed ih =>
      cases hf : f.saved? with
      | none => exact .frame hf (ih (by simpa [hf] using hpushed))
      | some b => simp [hf] at hpushed

/-- As long as the switches at work agree it does not matter what they are. -/
theorem same (h : Relit p q fs fs') (hsame : p = q) (b : Bool) : Relit b b fs fs' := by
  induction h with
  | nil => exact .nil b b
  | frame hf _ ih => exact .frame hf (ih hsame)
  | untraced h _ => exact .untraced h

theorem eq_nil (h : Relit p q [] fs) : fs = [] := by
  cases h
  rfl

theorem length_saved (h : Relit p q fs fs') :
    (fs'.filterMap Frame.saved?).length = (fs.filterMap Frame.saved?).length := by
  induction h with
  | nil => rfl
  | frame hf _ ih => simpa [hf] using ih
  | untraced _ ih => simpa [Frame.saved?] using ih

/-- Inside of a call of `eval` the switches at work agree. -/
theorem eq_of_saved (h : Relit p q fs fs') (hsaved : fs.filterMap Frame.saved? ≠ []) : p = q := by
  induction h with
  | nil => exact absurd rfl hsaved
  | frame hf _ ih => exact ih (by simpa [hf] using hsaved)
  | untraced => rfl

end Relit

/-- Moments of two runs that are equal but for tracing by the outermost evaluator. -/
structure Moment.Like (m n : Moment) : Prop where
  control : n.control = m.control
  frames : Relit m.state.tracing n.state.tracing m.frames n.frames
  state : m.state.Like n.state

section Pairs

variable {task inner : Task} {pushed : List Frame} {s s' t : State} {r : Except Error Value}
  {f : Frame} {control : Control} {m m' n : Moment} {moves : List Move}

/-- What a call comes to in one state it comes to in the other. -/
theorem Procedures.call_like {p : Native} {args : Value} {r : Except Error Answer}
    (h : call p args s = (r, t)) (hlike : s.Like s') :
    ∃ t', call p args s' = (r, t') ∧ t.Like t' := by
  have hcall := call_oblivious p args
  have hresult := hcall.result hlike
  have hstate := hcall.state hlike
  rw [h] at hresult hstate
  exact ⟨(call p args s').2, Prod.ext hresult rfl, hstate⟩

/-- A task ends alike in both states, if it turns no switch or the same one. -/
theorem Task.Ends.like (h : task.Ends s r t) (hlike : s.Like s')
    (htoggle : task.isToggle = true → s'.tracing = s.tracing) :
    ∃ t', task.Ends s' r t' ∧ t.Like t' := by
  cases h with
  | bound h => exact ⟨_, .bound (by rw [hlike.lookup, h]), hlike.trace rfl⟩
  | free h => exact ⟨_, .free (by rw [hlike.lookup, h]), hlike.trace rfl⟩
  | constant hsymbol hpair => exact ⟨_, .constant hsymbol hpair, hlike.trace rfl⟩
  | improper h => exact ⟨_, .improper h, hlike.trace rfl⟩
  | unknown hlist hfree hk =>
      exact ⟨_, .unknown hlist (by rw [hlike.lookup, hfree]) hk, hlike.trace rfl⟩
  | malformed h => exact ⟨_, .malformed h, hlike⟩
  | quote h => exact ⟨_, .quote h, hlike⟩
  | @lambda _ env _ _ _ _ h hformal =>
      have hends := @Ends.lambda s' env _ _ _ _ h hformal
      rw [hlike.nextMark, hlike.environments, hlike.bindings] at hends
      exact ⟨_, hends, (hlike.grown _).marked⟩
  | badFormals h hformal => exact ⟨_, .badFormals h hformal, hlike⟩
  | badTarget h htarget => exact ⟨_, .badTarget h htarget, hlike⟩
  | redefinition h hbound => exact ⟨_, .redefinition h (by rw [hlike.bindings, hbound]), hlike⟩
  | currentEnvironment h =>
      rw [← hlike.nextMark]
      exact ⟨_, .currentEnvironment h, hlike.marked⟩
  | toggleDebug h =>
      rw [← hlike.nextMark, ← htoggle (List.isEmpty_iff.mpr h)]
      exact ⟨_, .toggleDebug h, hlike.marked.withTracing _ _⟩
  | noOperands h => exact ⟨_, .noOperands h, hlike⟩
  | rejected h => exact ⟨_, .rejected h, hlike.trace rfl⟩
  | @answered _ _ m _ _ args p h =>
      obtain ⟨t', hcall, ht⟩ :=
        Procedures.call_like h (hlike.trace (e := .applying (.native m p) args) rfl)
      exact ⟨t', .answered hcall, ht⟩
  | @refused _ _ m _ args _ p h =>
      obtain ⟨t', hcall, ht⟩ :=
        Procedures.call_like h (hlike.trace (e := .applying (.native m p) args) rfl)
      exact ⟨t', .refused hcall, ht⟩
  | notProcedure h => exact ⟨_, .notProcedure h, hlike.trace rfl⟩

/-- Work goes on as the same work in both states, and an untraced evaluation begins in both with its
switch off. -/
theorem Task.Enters.like (h : task.Enters s inner pushed t) (hlike : s.Like s')
    {frames frames' : List Frame} (hframes : Relit s.tracing s'.tracing frames frames') :
    ∃ pushed' t', task.Enters s' inner pushed' t' ∧ t.Like t' ∧
      Relit t.tracing t'.tracing (pushed ++ frames) (pushed' ++ frames') := by
  cases h with
  | named hlist h =>
      exact ⟨_, _, .named hlist (by rw [hlike.lookup, h]), hlike.trace rfl, by simpa using hframes⟩
  | keyword hlist hfree hk =>
      exact ⟨_, _, .keyword hlist (by rw [hlike.lookup, hfree]) hk, hlike.trace rfl,
        by simpa using hframes⟩
  | computed hlist hsymbol =>
      exact ⟨_, _, .computed hlist hsymbol, hlike.trace rfl, .frame rfl (by simpa using hframes)⟩
  | define h hfree =>
      exact ⟨_, _, .define h (by rw [hlike.bindings, hfree]), hlike, .frame rfl hframes⟩
  | test alternate h => exact ⟨_, _, .test alternate h, hlike, .frame rfl hframes⟩
  | call => exact ⟨_, _, .call, hlike, .frame rfl hframes⟩
  | operands => exact ⟨_, _, .operands, hlike, .frame rfl hframes⟩
  | @body _ m env closure body args formal own h =>
      have henters := @Enters.body s' m env closure body args formal own h
      rw [hlike.environments, hlike.bindings, hlike.bindings] at henters
      refine ⟨_, _, henters, (hlike.trace rfl).grown _, ?_⟩
      have htracing (u : State) (e : Event) (b : Bindings) :
          ((u.trace e).grown b).tracing = u.tracing :=
        State.tracing_trace e u
      rw [htracing, htracing]
      exact hframes
  | @explicit _ t m _ _ _ args p h =>
      have hcall := Procedures.call_oblivious p args
      obtain ⟨t', h', ht⟩ :=
        Procedures.call_like h (hlike.trace (e := .applying (.native m p) args) rfl)
      have htracing := hcall.tracing (s.trace (.applying (.native m p) args))
      have htracing' := hcall.tracing (s'.trace (.applying (.native m p) args))
      rw [h, State.tracing_trace] at htracing
      rw [h', State.tracing_trace] at htracing'
      refine ⟨_, _, .explicit h', ht.withTracing _ _, .untraced ?_⟩
      rw [htracing, htracing']
      exact hframes

/-- An answer that stays with its evaluator is used alike in both states. -/
theorem Frame.Resumes.like (h : f.Resumes r s control pushed t) (hf : f.saved? = none)
    (hlike : s.Like s') : ∃ t', f.Resumes r s' control pushed t' ∧ t.Like t' := by
  cases h with
  | operator => exact ⟨_, .operator, hlike⟩
  | arguments => exact ⟨_, .arguments, hlike⟩
  | element => exact ⟨_, .element, hlike⟩
  | prepend =>
      rw [← hlike.nextMark]
      exact ⟨_, .prepend, hlike.marked⟩
  | consequent htrue => exact ⟨_, .consequent htrue, hlike⟩
  | alternate hfalse => exact ⟨_, .alternate hfalse, hlike⟩
  | noAlternate hfalse =>
      rw [← hlike.nextMark]
      exact ⟨_, .noAlternate hfalse, hlike.marked⟩
  | define hfree =>
      rw [← hlike.nextMark]
      exact ⟨_, .define (by rw [hlike.bindings, hfree]), (hlike.bind _ _ _).marked⟩
  | definedMeanwhile hbound =>
      exact ⟨_, .definedMeanwhile (by rw [hlike.bindings, hbound]), hlike⟩
  | untraced => cases hf
  | fails h => exact ⟨_, .fails h, hlike⟩

/-- One transition in both runs, if the outermost evaluator does not turn its switch. -/
theorem Transition.like (h : Transition m m') (hlike : m.Like n)
    (hown : (m.level == 0 && m.isToggle) = false) : ∃ n', Transition n n' ∧ m'.Like n' := by
  obtain ⟨control', frames', s'⟩ := n
  obtain ⟨hcontrol, hframes, hstate⟩ := hlike
  cases hcontrol
  cases h with
  | @ends task s r t frames h =>
      have hsame : task.isToggle = true → s.tracing = s'.tracing := by
        intro htoggle
        refine hframes.eq_of_saved fun hnone => ?_
        have htrue : (Moment.level ⟨.task task, frames, s⟩ == 0 &&
            Moment.isToggle ⟨.task task, frames, s⟩) = true := by
          simp [Moment.level, Moment.saved, hnone, Moment.isToggle, htoggle]
        rw [htrue] at hown
        cases hown
      obtain ⟨t', h', ht⟩ := h.like hstate fun htoggle => (hsame htoggle).symm
      refine ⟨_, .ends h', rfl, ?_, ht⟩
      dsimp only
      rw [h.traces.1, h'.traces.1]
      cases htoggle : task.isToggle with
      | true =>
          rw [hsame htoggle]
          exact hframes.same (hsame htoggle) _
      | false =>
          rw [Bool.false_xor, Bool.false_xor]
          exact hframes
  | @enters task s inner pushed t frames h =>
      obtain ⟨pushed', t', h', ht, hframes'⟩ := h.like hstate hframes
      exact ⟨_, .enters h', rfl, hframes', ht⟩
  | @resumes f r s control pushed t frames h =>
      obtain ⟨hflag, _⟩ := h.traces
      dsimp only at hframes
      generalize hp : s.tracing = p, hq : s'.tracing = q at hframes
      cases hframes with
      | frame hf hframes =>
          obtain ⟨t', h', ht⟩ := h.like hf hstate
          refine ⟨_, .resumes h', rfl, ?_, ht⟩
          rcases hflag with ⟨_, hpushed, htracing⟩ | ⟨rfl, _⟩
          · rcases h'.traces.1 with ⟨_, _, htracing'⟩ | ⟨rfl, _⟩
            · dsimp only
              rw [htracing, htracing', hp, hq]
              exact hframes.append hpushed
            · cases hf
          · cases hf
      | untraced hframes =>
          cases h with
          | untraced => exact ⟨_, .resumes .untraced, rfl, hframes, hstate.withTracing _ _⟩
          | fails hcatches => cases hcatches

/-- A run in which the outermost evaluator does not turn its switch can be made again from every
moment that is equal but for tracing. -/
theorem Passes.like (h : Passes Transition m moves m')
    (hown : ∀ move ∈ moves, (move.before.level == 0 && move.before.isToggle) = false)
    (hlike : m.Like n) :
    ∃ moves' n', Passes Transition n moves' n' ∧ m'.Like n' ∧
      ∀ move ∈ moves', (move.before.level == 0 && move.before.isToggle) = false := by
  induction h with
  | refl => exact ⟨[], n, .refl, hlike, by simp⟩
  | @tail moves before after _ hmove ih =>
      obtain ⟨moves', n', hpasses, hlike', hown'⟩ :=
        ih (fun move hin => hown move (List.mem_cons_of_mem _ hin))
      have hbefore := hown ⟨before, after⟩ List.mem_cons_self
      obtain ⟨n'', hmove', hlike''⟩ := hmove.like hlike' hbefore
      refine ⟨_, n'', hpasses.tail hmove', hlike'', fun move hin => ?_⟩
      rcases List.mem_cons.mp hin with rfl | hin
      · have hlevel : n'.level = before.level := hlike'.frames.length_saved
        have htoggle : n'.isToggle = before.isToggle := by
          rw [Moment.isToggle, hlike'.control, Moment.isToggle]
        rw [hlevel, htoggle]
        exact hbefore
      · exact hown' move hin

end Pairs

theorem Moment.tracing_of_records {m : Moment} (h : m.records ≠ []) : m.state.tracing = true := by
  by_contra hoff
  refine h ?_
  unfold records
  split
  · rw [if_neg hoff]
  · rfl

/-- A switch that was off and is on has been turned an odd number of times. -/
theorem odd_of_iterate_not {n : Nat} (h : not^[n] false = true) : Odd n := by
  by_contra heven
  rw [Bool.involutive_not.iterate_even (Nat.not_odd_iff_even.mp heven)] at h
  cases h

/-- Tracing does not interfere.  Evaluations that return are the runs that come to their end.  In every
run the switch of an evaluator has been turned as often as the evaluator itself has executed
`toggle-debug`, and inside of a call of `eval` it was off at first; traces are reported where the
switch is on, so inside of a call only after an odd number of `toggle-debug` forms of that call.  An
evaluation that executes no `toggle-debug` form but inside of calls of `eval` leaves the switch alone;
with its switch off at the start it reports no trace but inside of such calls; and however the switch
is set at the start it comes to the same result and the same state, but for what is reported. -/
theorem tracing_does_not_interfere (expr : Value) (env : EnvId) (s : State) :
    (∀ r t, (∃ depth rounds, eval depth rounds expr env s = some (r, t)) ↔
      ∃ moves, Passes Transition (.begin expr env s) moves (.ending r t)) ∧
    (∀ moves m, Passes Transition (.begin expr env s) moves m →
      m.state.tracing = not^[toggles m.level moves] (m.level == 0 && s.tracing) ∧
      m.state.events.filter Event.isTrace =
        moves.flatMap (fun move => move.before.records) ++ s.events.filter Event.isTrace ∧
      ∀ later move earlier, moves = later ++ move :: earlier → move.before.records ≠ [] →
        0 < move.before.level → Odd (toggles move.before.level earlier)) ∧
    ∀ moves r t, Passes Transition (.begin expr env s) moves (.ending r t) →
      toggles 0 moves = 0 →
      t.tracing = s.tracing ∧
      (s.tracing = false → ∀ move ∈ moves, move.before.records ≠ [] → 0 < move.before.level) ∧
      ∀ b, ∃ depth rounds events,
        eval depth rounds expr env { s with tracing := b } =
          some (r, { t with events := events, tracing := b }) ∧
        events.filter (fun e => !e.isTrace) = t.events.filter fun e => !e.isTrace := by
  refine ⟨fun r t => ⟨fun ⟨_, _, h⟩ => eval_passes h, fun ⟨_, h⟩ => h.eval⟩, ?_, ?_⟩
  · intro moves m h
    refine ⟨h.tracing_eq, h.records, ?_⟩
    rintro later move earlier rfl hrecords hlevel
    have htracing := h.before.tracing_eq
    rw [Moment.tracing_of_records hrecords, beq_eq_false_iff_ne.mpr (Nat.ne_of_gt hlevel),
      Bool.false_and] at htracing
    exact odd_of_iterate_not htracing.symm
  · intro moves r t h htoggles
    have hown := toggles_zero_eq_zero_iff.mp htoggles
    have hkeeps {s' t' : State} {moves' : List Move}
        (h : Passes Transition (.begin expr env s') moves' (.ending r t'))
        (hown : toggles 0 moves' = 0) : t'.tracing = s'.tracing := by
      have htracing := h.tracing_eq
      rw [show (Moment.ending r t').level = 0 from rfl, hown] at htracing
      exact htracing
    refine ⟨hkeeps h htoggles, ?_, fun b => ?_⟩
    · intro hoff move hmove hrecords
      obtain ⟨later, earlier, rfl⟩ := List.append_of_mem hmove
      refine Nat.pos_of_ne_zero fun hlevel => ?_
      have hearlier : toggles 0 earlier = 0 :=
        toggles_zero_eq_zero_iff.mpr fun move hin =>
          hown move (List.mem_append_right _ (List.mem_cons_of_mem _ hin))
      have htracing := h.before.tracing_eq
      rw [Moment.tracing_of_records hrecords, hlevel, hearlier, hoff] at htracing
      cases htracing
    · have hlike : (Moment.begin expr env s).Like (.begin expr env { s with tracing := b }) :=
        ⟨rfl, .nil _ _, (State.Like.refl s).withTracing s.tracing b⟩
      obtain ⟨moves', ⟨control, frames, t'⟩, hagain, ⟨hcontrol, hframes, hstate⟩, hown'⟩ :=
        h.like hown hlike
      cases hcontrol
      obtain rfl := hframes.eq_nil
      have htracing : t'.tracing = b := hkeeps hagain (toggles_zero_eq_zero_iff.mpr hown')
      obtain ⟨depth, rounds, heval⟩ := hagain.eval
      have hlast : t.Like t' := hstate
      refine ⟨depth, rounds, t'.events, ?_, hlast.reports⟩
      rw [heval, ← htracing]
      exact congrArg (fun u => some (r, u)) hlast.eq

/-- `(eval (quote (if (toggle-debug) 1)) (current-environment))` -/
def toggleInside : Value :=
  let list : List Value → Value := fun vs => vs.foldr (.pair ⟨0⟩) (.nil ⟨0⟩)
  let name : String → Value := .symbol ⟨0⟩
  list [name "eval",
    list [name "quote", list [name "if", list [name "toggle-debug"], .number ⟨0⟩ 1]],
    list [name "current-environment"]]

/-- Nothing is bound but `eval`, and tracing is off. -/
def State.withEval : State :=
  { State.initial .empty with environments := #[.ofList [("eval", .native ⟨0⟩ .eval)]] }

/-- The call of `eval` turns its own switch and traces the number; the caller executes no
`toggle-debug` form. -/
theorem toggleInside_passes :
    ∃ moves t, Passes Transition (.begin toggleInside ⟨0⟩ .withEval) moves
        (.ending (.ok (.number ⟨0⟩ 1)) t) ∧
      toggles 0 moves = 0 ∧ t.events = [.evaluating (.number ⟨0⟩ 1)] := by
  have hoperands : Passes Transition (.begin toggleInside ⟨0⟩ .withEval) _ _ :=
    Passes.refl
      |>.tail (.enters (.named rfl rfl))
      |>.tail (.enters .call)
      |>.tail (.enters .operands)
      |>.tail (.enters (.keyword (k := .quote) rfl rfl rfl))
      |>.tail (.ends (.quote rfl))
      |>.tail (.resumes .element)
      |>.tail (.enters .operands)
      |>.tail (.enters (.keyword (k := .currentEnvironment) rfl rfl rfl))
      |>.tail (.ends (.currentEnvironment rfl))
      |>.tail (.resumes .element)
      |>.tail (.ends (.noOperands rfl))
      |>.tail (.resumes .prepend)
      |>.tail (.resumes .prepend)
      |>.tail (.resumes .arguments)
  have hinside := hoperands
      |>.tail (.enters (.explicit rfl))
      |>.tail (.enters (.keyword (k := .ifForm) rfl rfl rfl))
      |>.tail (.enters (.test none rfl))
      |>.tail (.enters (.keyword (k := .toggleDebug) rfl rfl rfl))
      |>.tail (.ends (.toggleDebug rfl))
      |>.tail (.resumes (.consequent rfl))
      |>.tail (.ends (.constant rfl rfl))
      |>.tail (.resumes .untraced)
  exact ⟨_, _, hinside, by decide, rfl⟩

/-- The number is traced inside of the call, after one turn of the switch there, and with tracing on
from the start the outcome is the same. -/
theorem tracing_does_not_interfere_inside :
    ∃ moves t later move earlier,
      Passes Transition (.begin toggleInside ⟨0⟩ .withEval) moves
        (.ending (.ok (.number ⟨0⟩ 1)) t) ∧
      toggles 0 moves = 0 ∧ t.tracing = false ∧ moves = later ++ move :: earlier ∧
      move.before.records ≠ [] ∧ 0 < move.before.level ∧
      Odd (toggles move.before.level earlier) ∧
      ∃ depth rounds events,
        eval depth rounds toggleInside ⟨0⟩ { State.withEval with tracing := true } =
          some (.ok (.number ⟨0⟩ 1), { t with events := events, tracing := true }) := by
  obtain ⟨moves, t, h, htoggles, hevents⟩ := toggleInside_passes
  obtain ⟨_, hrun, htwo⟩ := tracing_does_not_interfere toggleInside ⟨0⟩ .withEval
  obtain ⟨_, hrecords, hodd⟩ := hrun moves _ h
  obtain ⟨htracing, hinside, hagain⟩ := htwo moves _ t h htoggles
  obtain ⟨move, hmove, hrecord⟩ : ∃ move ∈ moves, move.before.records ≠ [] := by
    by_contra hnone
    have hempty : moves.flatMap (fun move => move.before.records) = [] := by
      rw [List.flatMap_eq_nil_iff]
      intro move hmove
      by_contra hrecord
      exact hnone ⟨move, hmove, hrecord⟩
    rw [hempty] at hrecords
    change t.events.filter Event.isTrace = [] at hrecords
    rw [hevents] at hrecords
    cases hrecords
  obtain ⟨later, earlier, hsplit⟩ := List.append_of_mem hmove
  have hlevel := hinside rfl move hmove hrecord
  obtain ⟨depth, rounds, events, heval, _⟩ := hagain true
  exact ⟨moves, t, later, move, earlier, h, htoggles, htracing, hsplit, hrecord, hlevel,
    hodd later move earlier hsplit hrecord hlevel, depth, rounds, events, heval⟩

/-- A run with its switch off can leave traces though its evaluator executes no `toggle-debug` form:
a call of `eval` in it may turn its own switch. -/
theorem not_silent_without_toggles :
    ¬ ∀ (expr : Value) (env : EnvId) (s t : State) (r : Except Error Value) (moves : List Move),
      Passes Transition (.begin expr env s) moves (.ending r t) → s.tracing = false →
        toggles 0 moves = 0 → t.events.filter Event.isTrace = s.events.filter Event.isTrace := by
  intro hsilent
  obtain ⟨moves, t, h, htoggles, hevents⟩ := toggleInside_passes
  have htraces := hsilent toggleInside ⟨0⟩ .withEval t _ moves h rfl htoggles
  rw [hevents] at htraces
  cases htraces

end TinyLisp
