import TinyLisp.Proofs.Evaluation.Passage

/-!
How the tasks of a run come about.  Every task is begun by another one: as what that one goes on as,
or with the answer of what it waited for.  So a task that a run gets to has a line of tasks above it,
up to the first one, and every answer it was begun with is derived.  Main statements:
`Moment.within_of_transitions`, and who begins a call or an application.
-/

namespace TinyLisp

open Evaluator
open Relation (ReflTransGen)

/-- A task begins another one, in front of what then waits for that one. -/
inductive Task.Begins : Task → State → Task → List Frame → State → Prop where
  | enters {task s inner pushed t} (h : task.Enters s inner pushed t) : Begins task s inner pushed t
  | resumes {task s other f t r u inner pushed t'} (h : Begins task s other [f] t)
      (hother : other.Derives t r u) (hresumes : f.Resumes r u (.task inner) pushed t') :
      Begins task s inner pushed t'

/-- A moment at a task and a moment at a task that it begins. -/
inductive Moment.Begins : Moment → Moment → Prop where
  | mk {task s inner pushed t frames} (h : task.Begins s inner pushed t) :
      Begins ⟨.task task, frames, s⟩ ⟨.task inner, pushed ++ frames, t⟩

variable {start : Moment} {task inner first : Task} {pushed frames : List Frame} {s t u s₀ : State}
  {r : Except Error Value} {f : Frame} {control : Control} {env : EnvId}

/-! ### One task begins another -/

theorem Task.Enters.pushed_cases (h : task.Enters s inner pushed t) :
    pushed = [] ∨ ∃ f, pushed = [f] := by
  cases h <;> simp

theorem Frame.Resumes.pushed_cases (h : f.Resumes r s control pushed t) :
    pushed = [] ∨ ∃ g, pushed = [g] := by
  cases h <;> simp

theorem Task.Begins.pushed_cases (h : task.Begins s inner pushed t) :
    pushed = [] ∨ ∃ f, pushed = [f] := by
  cases h with
  | enters h => exact h.pushed_cases
  | resumes _ _ h => exact h.pushed_cases

/-- A task comes to what comes of the tasks that it begins. -/
theorem Task.Begins.derives (h : task.Begins s inner pushed t) {r' : Except Error Value}
    {t' : State} (hinner : inner.Derives t r' t') (hrest : Unwinds pushed r' t' r u) :
    task.Derives s r u := by
  induction h generalizing r' t' with
  | @enters _ pushed _ h =>
      rw [← List.append_nil pushed] at hrest
      obtain ⟨_, _, hderives, hdone⟩ := h.derives hinner hrest
      cases hdone
      exact hderives
  | @resumes _ _ _ _ _ _ pushed _ _ hother hresumes ih =>
      rw [← List.append_nil pushed] at hrest
      exact ih hother (.task hresumes hinner hrest)

/-- A run gets from a task to those that it begins. -/
theorem Task.Begins.transitions (h : task.Begins s inner pushed t) (frames : List Frame) :
    Transitions ⟨.task task, frames, s⟩ ⟨.task inner, pushed ++ frames, t⟩ := by
  induction h with
  | enters h => exact .single (.enters h)
  | resumes _ hother hresumes ih =>
      exact ih.trans ((hother.transitions _).trans (.single (.resumes hresumes)))

theorem Moment.transitions_of_begins {m : Moment} (h : ReflTransGen Begins start m) :
    Transitions start m := by
  induction h with
  | refl => exact .refl
  | tail _ h ih =>
      cases h with
      | mk h => exact ih.trans (h.transitions _)

/-! ### What a run is within -/

/-- The frames wait for the answer of a task that was taken up in this state: the first task when
there are none, and else one that was begun in front of the topmost frame. -/
inductive Moment.Awaits (start : Moment) (first : Task) (s₀ : State) :
    List Frame → Task → State → Prop where
  | bottom : Awaits start first s₀ [] first s₀
  | above {frames outer s' task s f inner t}
      (hframes : Awaits start first s₀ frames outer s')
      (htask : ReflTransGen Begins start ⟨.task task, frames, s⟩)
      (houter : ∀ r u, task.Derives s r u → outer.Derives s' r u)
      (hinner : task.Begins s inner [f] t) :
      Awaits start first s₀ (f :: frames) inner t

/-- What holds at each moment of a run: a line of tasks leads to the task there, whose answer is the
one that the frames wait for; and an answer is the one that they wait for. -/
def Moment.Within (start : Moment) (first : Task) (s₀ : State) (m : Moment) : Prop :=
  ∃ outer s', Awaits start first s₀ m.frames outer s' ∧
    match m.control with
    | .task task => ReflTransGen Begins start ⟨.task task, m.frames, m.state⟩ ∧
        ∀ r u, task.Derives m.state r u → outer.Derives s' r u
    | .answer r => outer.Derives s' r m.state

namespace Moment

variable {m m' : Moment}

/-- A task that was begun is within, whether something waits for it or it takes the place of the one
that began it. -/
theorem within_of_begins {outer : Task} {s' : State}
    (hframes : Awaits start first s₀ frames outer s')
    (htask : ReflTransGen Begins start ⟨.task task, frames, s⟩)
    (houter : ∀ r u, task.Derives s r u → outer.Derives s' r u)
    (hinner : task.Begins s inner pushed t) :
    Within start first s₀ ⟨.task inner, pushed ++ frames, t⟩ := by
  have hline := htask.tail (.mk hinner)
  rcases hinner.pushed_cases with rfl | ⟨f, rfl⟩
  · exact ⟨outer, s', hframes, hline, fun r u h => houter r u (hinner.derives h .done)⟩
  · exact ⟨inner, t, hframes.above htask houter hinner, hline, fun _ _ h => h⟩

theorem Within.transition (h : Within start first s₀ m) (hmove : Transition m m') :
    Within start first s₀ m' := by
  obtain ⟨outer, s', hframes, hcontrol⟩ := h
  cases hmove with
  | ends hends =>
      obtain ⟨_, houter⟩ := hcontrol
      exact ⟨outer, s', hframes, houter _ _ (.ends hends)⟩
  | enters henters =>
      obtain ⟨htask, houter⟩ := hcontrol
      exact within_of_begins hframes htask houter (.enters henters)
  | @resumes _ _ _ control _ _ _ hresumes =>
      cases hframes with
      | above hframes htask houter hinner =>
          cases control with
          | task task =>
              exact within_of_begins hframes htask houter (.resumes hinner hcontrol hresumes)
          | answer r' =>
              obtain rfl := hresumes.pushed_of_answer
              have hderives := hinner.derives hcontrol (.answer hresumes .done)
              exact ⟨_, _, hframes, houter _ _ hderives⟩

/-- By induction on the run: every task that it gets to has a line of tasks above it. -/
theorem within_of_transitions (h : Transitions ⟨.task first, [], s₀⟩ m) :
    Within ⟨.task first, [], s₀⟩ first s₀ m := by
  induction h with
  | refl => exact ⟨first, s₀, .bottom, .refl, fun _ _ h => h⟩
  | tail _ hmove ih => exact ih.transition hmove

theorem begins_of_transitions
    (h : Transitions ⟨.task first, [], s₀⟩ ⟨.task task, frames, s⟩) :
    ReflTransGen Begins ⟨.task first, [], s₀⟩ ⟨.task task, frames, s⟩ := by
  obtain ⟨_, _, _, hline, _⟩ := within_of_transitions h
  exact hline

end Moment

/-! ### Who begins what -/

namespace Task.Begins

/-- A procedure is applied by a call of it, to the values of the operands. -/
theorem of_application {procedure args : Value}
    (h : task.Begins s (.application procedure args env) pushed t) :
    pushed = [] ∧ ∃ operands, task = .call procedure operands env ∧
      (Task.operands operands env).Derives s (.ok args) t := by
  cases h with
  | enters h => cases h
  | resumes h hother hresumes =>
      cases hresumes
      cases h with
      | enters h =>
          cases h
          exact ⟨rfl, _, rfl, hother⟩
      | resumes _ _ h => cases h

/-- What the head of a combination comes to: its binding, or what it is evaluated to. -/
inductive Heads (env : EnvId) : Value → State → Value → State → Prop where
  | named {m x s procedure} (h : s.lookup env x = some procedure) :
      Heads env (.symbol m x) s procedure s
  | computed {head s procedure t} (hsymbol : head.symbol? = none)
      (h : Derives (.expression head env) s (.ok procedure) t) : Heads env head s procedure t

/-- A procedure is called by a combination with a proper list of operands. -/
theorem of_call {procedure operands : Value}
    (h : task.Begins s (.call procedure operands env) pushed t) :
    pushed = [] ∧ ∃ m head, task = .expression (.pair m head operands) env ∧
      operands.isList = true ∧
      Heads env head (s.trace (.evaluating (.pair m head operands))) procedure t := by
  cases h with
  | enters h =>
      cases h with
      | named hlist h => exact ⟨rfl, _, _, rfl, hlist, .named (by simpa using h)⟩
  | resumes h hother hresumes =>
      cases hresumes
      cases h with
      | enters h =>
          cases h with
          | computed hlist hsymbol => exact ⟨rfl, _, _, rfl, hlist, .computed hsymbol hother⟩
      | resumes _ _ h => cases h

end Task.Begins

end TinyLisp
