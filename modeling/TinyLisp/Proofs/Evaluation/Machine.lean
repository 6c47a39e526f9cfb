import Mathlib.Logic.Relation
import TinyLisp.Proofs.Evaluation.Direct

/-!
Evaluation moment by moment.  A machine works at one task at a time and keeps what waits for its
answer on a stack, so every intermediate state of a run is a moment of it and runs that never end
have moments too.  Main statement: `transitions_iff_derives`, from a task to its answer the machine
goes exactly where the direct style derives.
-/

namespace TinyLisp

/-- What waits for an answer. -/
inductive Frame where
  | operator (operands : Value) (env : EnvId)
  | arguments (procedure : Value) (env : EnvId)
  | element (rest : Value) (env : EnvId)
  | prepend (v : Value)
  | test (consequent : Value) (alternate : Option Value) (env : EnvId)
  | definition (x : String) (env : EnvId)
  | untraced (tracing : Bool)
  deriving DecidableEq, Repr

/-- Only the end of an untraced evaluation has something to do after an error. -/
def Frame.catches : Frame → Bool
  | .untraced _ => true
  | _ => false

/-- What the machine is at: a task, or the answer of one. -/
inductive Control where
  | task (task : Task)
  | answer (r : Except Error Value)

structure Moment where
  control : Control
  frames : List Frame
  state : State

/-- A task goes on as another task, in front of what then waits for that one. -/
inductive Task.Enters : Task → State → Task → List Frame → State → Prop where
  | named {s m m' env x operands procedure}
      (hlist : operands.isList = true) (h : s.lookup env x = some procedure) :
      Enters (.expression (.pair m (.symbol m' x) operands) env) s
        (.call procedure operands env) []
        (s.trace (.evaluating (.pair m (.symbol m' x) operands)))
  | keyword {s m m' env x operands k}
      (hlist : operands.isList = true) (hfree : s.lookup env x = none)
      (hk : Keyword.ofName? x = some k) :
      Enters (.expression (.pair m (.symbol m' x) operands) env) s (.form k operands env) []
        (s.trace (.evaluating (.pair m (.symbol m' x) operands)))
  | computed {s m env head operands}
      (hlist : operands.isList = true) (hsymbol : head.symbol? = none) :
      Enters (.expression (.pair m head operands) env) s (.expression head env)
        [.operator operands env] (s.trace (.evaluating (.pair m head operands)))
  | define {s m env x expr operands} (h : operands.elements = [.symbol m x, expr])
      (hfree : (s.bindings env).contains x = false) :
      Enters (.form .define operands env) s (.expression expr env) [.definition x env] s
  | test {s env operands test consequent} (alternate : Option Value)
      (h : operands.elements = test :: consequent :: alternate.toList) :
      Enters (.form .ifForm operands env) s (.expression test env)
        [.test consequent alternate env] s
  | call {s env procedure operands} :
      Enters (.call procedure operands env) s (.operands operands env)
        [.arguments procedure env] s
  | operands {s m env first rest} :
      Enters (.operands (.pair m first rest) env) s (.expression first env)
        [.element rest env] s
  | body {s m env closure body args formal own} (h : formal.accept args = .ok own) :
      Enters (.application (.lambda m closure formal body) args env) s
        (.expression body ⟨s.environments.size⟩) []
        ((s.trace (.applying (.lambda m closure formal body) args)).grown
          (callBindings (s.bindings env) (s.bindings closure) own))
  | explicit {s t m env inner expr args p}
      (h : Procedures.call p args (s.trace (.applying (.native m p) args)) =
        (.ok (.evaluation expr inner), t)) :
      Enters (.application (.native m p) args env) s (.expression expr inner)
        [.untraced t.tracing] { t with tracing := false }

/-- What becomes of an answer where it was waited for. -/
inductive Frame.Resumes :
    Frame → Except Error Value → State → Control → List Frame → State → Prop where
  | operator {s env operands procedure} :
      Resumes (.operator operands env) (.ok procedure) s
        (.task (.call procedure operands env)) [] s
  | arguments {s env procedure args} :
      Resumes (.arguments procedure env) (.ok args) s
        (.task (.application procedure args env)) [] s
  | element {s env v rest} :
      Resumes (.element rest env) (.ok v) s (.task (.operands rest env)) [.prepend v] s
  | prepend {s v vs} :
      Resumes (.prepend v) (.ok vs) s (.answer (.ok (.pair ⟨s.nextMark⟩ v vs))) [] s.marked
  | consequent {s env v consequent alternate} (htrue : v.isTrue = true) :
      Resumes (.test consequent alternate env) (.ok v) s
        (.task (.expression consequent env)) [] s
  | alternate {s env v consequent alternate} (hfalse : v.isTrue = false) :
      Resumes (.test consequent (some alternate) env) (.ok v) s
        (.task (.expression alternate env)) [] s
  | noAlternate {s env v consequent} (hfalse : v.isTrue = false) :
      Resumes (.test consequent none env) (.ok v) s
        (.answer (.ok (.unspecified ⟨s.nextMark⟩))) [] s.marked
  | define {s env x v} (hfree : (s.bindings env).contains x = false) :
      Resumes (.definition x env) (.ok v) s
        (.answer (.ok (.unspecified ⟨s.nextMark⟩))) [] (s.bind env x v).marked
  | definedMeanwhile {s env x v} (hbound : (s.bindings env).contains x = true) :
      Resumes (.definition x env) (.ok v) s (.answer (.error (.redefinition x))) [] s
  | untraced {s r tracing} :
      Resumes (.untraced tracing) r s (.answer r) [] { s with tracing := tracing }
  | fails {s f e} (h : f.catches = false) :
      Resumes f (.error e) s (.answer (.error e)) [] s

/-- One transition: a task ends or goes on as another one, or an answer comes back to what waits
for it. -/
inductive Transition : Moment → Moment → Prop where
  | ends {task s r t frames} (h : task.Ends s r t) :
      Transition ⟨.task task, frames, s⟩ ⟨.answer r, frames, t⟩
  | enters {task s inner pushed t frames} (h : task.Enters s inner pushed t) :
      Transition ⟨.task task, frames, s⟩ ⟨.task inner, pushed ++ frames, t⟩
  | resumes {f r s control pushed t frames} (h : Frame.Resumes f r s control pushed t) :
      Transition ⟨.answer r, f :: frames, s⟩ ⟨control, pushed ++ frames, t⟩

/-- Any number of transitions. -/
abbrev Transitions : Moment → Moment → Prop :=
  Relation.ReflTransGen Transition

/-! ### From derivations to transitions -/

section Transitions

variable {task inner : Task} {frames pushed : List Frame} {s t u : State} {m : Moment}
  {r : Except Error Value} {f : Frame} {control : Control}

theorem Task.Enters.followed (h : task.Enters s inner pushed t)
    (hrest : Transitions ⟨.task inner, pushed ++ frames, t⟩ m) :
    Transitions ⟨.task task, frames, s⟩ m :=
  .head (.enters h) hrest

theorem Frame.Resumes.followed (h : f.Resumes r s control pushed t)
    (hrest : Transitions ⟨control, pushed ++ frames, t⟩ m) :
    Transitions ⟨.answer r, f :: frames, s⟩ m :=
  .head (.resumes h) hrest

/-- The machine comes to every answer that is derived, whatever waits for it. -/
theorem Task.Derives.transitions (h : task.Derives s r t) (frames : List Frame) :
    Transitions ⟨.task task, frames, s⟩ ⟨.answer r, frames, t⟩ := by
  induction h generalizing frames with
  | ends h => exact .single (.ends h)
  | named hlist h _ ih => exact (Enters.named hlist h).followed (ih frames)
  | keyword hlist hfree hk _ ih => exact (Enters.keyword hlist hfree hk).followed (ih frames)
  | computed hlist hsymbol _ _ ihhead ihcall =>
      refine (Enters.computed hlist hsymbol).followed ((ihhead _).trans ?_)
      exact Frame.Resumes.operator.followed (ihcall frames)
  | headFails hlist hsymbol _ ih =>
      refine (Enters.computed hlist hsymbol).followed ((ih _).trans ?_)
      exact (Frame.Resumes.fails rfl).followed .refl
  | define h hfree _ hstill ih =>
      refine (Enters.define h hfree).followed ((ih _).trans ?_)
      exact (Frame.Resumes.define hstill).followed .refl
  | definedMeanwhile h hfree _ hbound ih =>
      refine (Enters.define h hfree).followed ((ih _).trans ?_)
      exact (Frame.Resumes.definedMeanwhile hbound).followed .refl
  | valueFails h hfree _ ih =>
      refine (Enters.define h hfree).followed ((ih _).trans ?_)
      exact (Frame.Resumes.fails rfl).followed .refl
  | consequent h _ htrue _ ihtest ihbranch =>
      refine (Enters.test _ h).followed ((ihtest _).trans ?_)
      exact (Frame.Resumes.consequent htrue).followed (ihbranch frames)
  | @alternate _ _ _ _ _ _ _ _ _ other h _ hfalse _ ihtest ihbranch =>
      refine (Enters.test (some other) h).followed ((ihtest _).trans ?_)
      exact (Frame.Resumes.alternate hfalse).followed (ihbranch frames)
  | noAlternate h _ hfalse ih =>
      refine (Enters.test none h).followed ((ih _).trans ?_)
      exact (Frame.Resumes.noAlternate hfalse).followed .refl
  | testFails h _ ih =>
      refine (Enters.test _ h).followed ((ih _).trans ?_)
      exact (Frame.Resumes.fails rfl).followed .refl
  | call _ _ ihoperands ihapplication =>
      refine Enters.call.followed ((ihoperands _).trans ?_)
      exact Frame.Resumes.arguments.followed (ihapplication frames)
  | operandsFail _ ih =>
      refine Enters.call.followed ((ih _).trans ?_)
      exact (Frame.Resumes.fails rfl).followed .refl
  | operands _ _ ihfirst ihrest =>
      refine Enters.operands.followed ((ihfirst _).trans ?_)
      refine Frame.Resumes.element.followed ((ihrest _).trans ?_)
      exact Frame.Resumes.prepend.followed .refl
  | firstFails _ ih =>
      refine Enters.operands.followed ((ih _).trans ?_)
      exact (Frame.Resumes.fails rfl).followed .refl
  | restFails _ _ ihfirst ihrest =>
      refine Enters.operands.followed ((ihfirst _).trans ?_)
      refine Frame.Resumes.element.followed ((ihrest _).trans ?_)
      exact (Frame.Resumes.fails rfl).followed .refl
  | body h _ ih => exact (Enters.body h).followed (ih frames)
  | explicit h _ ih =>
      refine (Enters.explicit h).followed ((ih _).trans ?_)
      exact Frame.Resumes.untraced.followed .refl

end Transitions

/-! ### From transitions to derivations -/

/-- `Unwinds frames r s r' t`: an answer that comes back to the frames in `s` leads to the answer
`r'` in `t`, with every task on the way derived. -/
inductive Unwinds :
    List Frame → Except Error Value → State → Except Error Value → State → Prop where
  | done {r s} : Unwinds [] r s r s
  | answer {f frames r s r' s' result u} (h : Frame.Resumes f r s (.answer r') [] s')
      (hrest : Unwinds frames r' s' result u) : Unwinds (f :: frames) r s result u
  | task {f frames r s task pushed s' r' t result u}
      (h : Frame.Resumes f r s (.task task) pushed s') (htask : task.Derives s' r' t)
      (hrest : Unwinds (pushed ++ frames) r' t result u) : Unwinds (f :: frames) r s result u

/-- `m.ComesTo r t`: derivations lead from the moment to the answer `r` in `t`. -/
def Moment.ComesTo (m : Moment) (result : Except Error Value) (u : State) : Prop :=
  match m.control with
  | .task task => ∃ r t, task.Derives m.state r t ∧ Unwinds m.frames r t result u
  | .answer r => Unwinds m.frames r m.state result u

section Unwinds

variable {task inner : Task} {frames pushed : List Frame} {s t u : State}
  {r result : Except Error Value}

theorem Frame.Resumes.pushed_of_answer {f : Frame} {r' : Except Error Value}
    (h : f.Resumes r s (.answer r') pushed t) : pushed = [] := by
  cases h <;> rfl

/-- A task is derived from the task it goes on as and from what waits for that one. -/
theorem Task.Enters.derives (h : task.Enters s inner pushed t) {r' : Except Error Value} {t' : State}
    (hinner : inner.Derives t r' t') (hrest : Unwinds (pushed ++ frames) r' t' result u) :
    ∃ r w, task.Derives s r w ∧ Unwinds frames r w result u := by
  cases h with
  | named hlist h => exact ⟨r', t', .named hlist h hinner, hrest⟩
  | keyword hlist hfree hk => exact ⟨r', t', .keyword hlist hfree hk hinner, hrest⟩
  | body h => exact ⟨r', t', .body h hinner, hrest⟩
  | computed hlist hsymbol =>
      rcases hrest with _ | ⟨h, hrest⟩ | ⟨h, htask, hrest⟩
      · cases h
        exact ⟨_, _, .headFails hlist hsymbol hinner, hrest⟩
      · cases h
        exact ⟨_, _, .computed hlist hsymbol hinner htask, hrest⟩
  | define h hfree =>
      rcases hrest with _ | ⟨hresume, hrest⟩ | ⟨hresume, htask, hrest⟩
      · cases hresume with
        | define hstill => exact ⟨_, _, .define h hfree hinner hstill, hrest⟩
        | definedMeanwhile hbound => exact ⟨_, _, .definedMeanwhile h hfree hinner hbound, hrest⟩
        | fails _ => exact ⟨_, _, .valueFails h hfree hinner, hrest⟩
      · cases hresume
  | test alternate h =>
      rcases hrest with _ | ⟨hresume, hrest⟩ | ⟨hresume, htask, hrest⟩
      · cases hresume with
        | noAlternate hfalse => exact ⟨_, _, .noAlternate h hinner hfalse, hrest⟩
        | fails _ => exact ⟨_, _, .testFails h hinner, hrest⟩
      · cases hresume with
        | consequent htrue => exact ⟨_, _, .consequent h hinner htrue htask, hrest⟩
        | alternate hfalse => exact ⟨_, _, .alternate h hinner hfalse htask, hrest⟩
  | call =>
      rcases hrest with _ | ⟨hresume, hrest⟩ | ⟨hresume, htask, hrest⟩
      · cases hresume
        exact ⟨_, _, .operandsFail hinner, hrest⟩
      · cases hresume
        exact ⟨_, _, .call hinner htask, hrest⟩
  | operands =>
      rcases hrest with _ | ⟨hresume, hrest⟩ | ⟨hresume, htask, hrest⟩
      · cases hresume
        exact ⟨_, _, .firstFails hinner, hrest⟩
      · cases hresume
        rcases hrest with _ | ⟨hprepend, hrest⟩ | ⟨hprepend, _, _⟩
        · cases hprepend with
          | prepend => exact ⟨_, _, .operands hinner htask, hrest⟩
          | fails _ => exact ⟨_, _, .restFails hinner htask, hrest⟩
        · cases hprepend
  | explicit h =>
      rcases hrest with _ | ⟨hresume, hrest⟩ | ⟨hresume, _, _⟩
      · cases hresume with
        | untraced => exact ⟨_, _, .explicit h hinner, hrest⟩
        | fails hcatches => cases hcatches
      · cases hresume

theorem Transition.comesTo {m m' : Moment} (h : Transition m m') (hlater : m'.ComesTo result u) :
    m.ComesTo result u := by
  cases h with
  | ends h => exact ⟨_, _, .ends h, hlater⟩
  | enters h =>
      obtain ⟨r', t', hinner, hrest⟩ := hlater
      exact h.derives hinner hrest
  | @resumes _ _ _ control _ _ _ h =>
      cases control with
      | task task =>
          obtain ⟨r', t', htask, hrest⟩ := hlater
          exact .task h htask hrest
      | answer r' =>
          obtain rfl := h.pushed_of_answer
          exact .answer h hlater

theorem Moment.comesTo_of_transitions {m : Moment}
    (h : Transitions m ⟨.answer r, [], t⟩) : m.ComesTo r t := by
  induction h using Relation.ReflTransGen.head_induction_on with
  | refl => exact .done
  | head h _ ih => exact h.comesTo ih

/-- The machine and the direct style agree: from a task in front of nothing, an answer in front of
nothing is reached exactly when it is derived. -/
theorem transitions_iff_derives :
    Transitions ⟨.task task, [], s⟩ ⟨.answer r, [], t⟩ ↔ task.Derives s r t := by
  constructor
  · intro h
    obtain ⟨r', t', hderives, hunwinds⟩ := Moment.comesTo_of_transitions h
    cases hunwinds
    exact hderives
  · intro h
    exact h.transitions []

end Unwinds

end TinyLisp
