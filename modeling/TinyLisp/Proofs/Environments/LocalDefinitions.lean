import TinyLisp.Proofs.Environments.Callers
import TinyLisp.Proofs.Evaluation.Passage

/-!
Definitions in bodies.  A body runs over the bindings of its caller, and what is bound there cannot be
defined.  Main statement: `local_define_refused`, a body that comes to define a name is refused when
its caller has that name.  Two runs are followed side by side, one of which has the name in more
environments; until the name is looked up they differ only where the other defines it.
-/

namespace TinyLisp

open Evaluator Run

/-- The second bindings are the first ones, except that they may bind a name anew or to another
value. -/
structure Bindings.Occupies (x : String) (b b' : Bindings) : Prop where
  find?_eq : ∀ y, y ≠ x → b'.find? y = b.find? y
  contains : b.contains x = true → b'.contains x = true

/-- The second state is the first one, except that a name may be bound in more environments and to
other values. -/
structure State.Occupies (x : String) (s s' : State) : Prop where
  rest : s' = s.withEnvironments s'.environments
  size : s'.environments.size = s.environments.size
  bindings : ∀ env, (s.bindings env).Occupies x (s'.bindings env)

/-- Both are at the same work. -/
structure Moment.Occupies (x : String) (m m' : Moment) : Prop where
  control : m'.control = m.control
  frames : m'.frames = m.frames
  state : m.state.Occupies x m'.state

/-- Whether a task looks a name up: as an expression, or as the head of one. -/
def Task.refersTo (x : String) : Task → Bool
  | .expression (.symbol _ y) _ => y = x
  | .expression (.pair _ (.symbol _ y) _) _ => y = x
  | _ => false

def Moment.refersTo (x : String) (m : Moment) : Bool :=
  match m.control with
  | .task task => task.refersTo x
  | .answer _ => false

/-! ### Bindings and states -/

section States

variable {x : String} {b b' captured captured' : Bindings} {s s' : State}

theorem Bindings.Occupies.refl (x : String) (b : Bindings) : b.Occupies x b :=
  ⟨fun _ _ => rfl, id⟩

theorem Bindings.Occupies.insert_new (b : Bindings) (x : String) (v : Value) :
    b.Occupies x (b.insert x v) where
  find?_eq y hy := by rw [find?_insert, if_neg hy]
  contains _ := by simp [contains_insert]

theorem Bindings.Occupies.contains_eq (h : b.Occupies x b') {y : String} (hy : y ≠ x) :
    b'.contains y = b.contains y := by
  rw [Bindings.contains, h.find?_eq y hy, Bindings.contains]

theorem Bindings.Occupies.contains_of_contains (h : b.Occupies x b') {y : String}
    (hbound : b.contains y = true) : b'.contains y = true := by
  by_cases hy : y = x
  · subst hy
    exact h.contains hbound
  · rw [h.contains_eq hy, hbound]

/-- Only the one name can be bound in the second alone. -/
theorem Bindings.Occupies.eq_of_contains (h : b.Occupies x b') {y : String}
    (hfree : b.contains y = false) (hbound : b'.contains y = true) : y = x := by
  by_contra hy
  rw [h.contains_eq hy, hfree] at hbound
  cases hbound

theorem Bindings.Occupies.insert (h : b.Occupies x b') (y : String) (v : Value) :
    (b.insert y v).Occupies x (b'.insert y v) where
  find?_eq z hz := by rw [find?_insert, find?_insert, h.find?_eq z hz]
  contains hb := by
    rw [contains_insert, Bool.or_eq_true] at hb ⊢
    exact hb.imp_right h.contains

theorem Bindings.Occupies.overlay (h : b.Occupies x b') (h' : captured.Occupies x captured') :
    (b.overlay captured).Occupies x (b'.overlay captured') where
  find?_eq y hy := by rw [find?_overlay, find?_overlay, h.find?_eq y hy, h'.find?_eq y hy]
  contains hb := by
    rw [contains_overlay, Bool.or_eq_true] at hb ⊢
    exact hb.imp h'.contains h.contains

theorem Bindings.Occupies.callBindings (h : b.Occupies x b') (h' : captured.Occupies x captured')
    (own : Option (String × Value)) :
    (callBindings b captured own).Occupies x (callBindings b' captured' own) := by
  cases own with
  | none => exact h.overlay h'
  | some binding => exact (h.overlay h').insert binding.1 binding.2

/-- A body has all names that its caller has. -/
theorem contains_callBindings (h : b.contains x = true) (own : Option (String × Value)) :
    (callBindings b captured own).contains x = true := by
  cases own with
  | none => simp [callBindings, Bindings.contains_overlay, h]
  | some binding =>
      simp [callBindings, Bindings.contains_insert, Bindings.contains_overlay, h]

namespace State.Occupies

theorem refl (x : String) (s : State) : s.Occupies x s :=
  ⟨rfl, rfl, fun _ => .refl x _⟩

theorem lookup_eq (h : s.Occupies x s') (env : EnvId) {y : String} (hy : y ≠ x) :
    s'.lookup env y = s.lookup env y :=
  (h.bindings env).find?_eq y hy

theorem nextMark_eq (h : s.Occupies x s') : s'.nextMark = s.nextMark := by
  rw [h.rest, withEnvironments]

theorem tracing_eq (h : s.Occupies x s') : s'.tracing = s.tracing := by
  rw [h.rest, withEnvironments]

/-- What is done to both states and does not concern the environments leaves them as alike. -/
theorem aside (h : s.Occupies x s') {f : State → State}
    (hf : ∀ s environments, f (s.withEnvironments environments) =
      (f s).withEnvironments environments)
    (hsame : (f s).environments = s.environments) : (f s).Occupies x (f s') := by
  have hrest : f s' = (f s).withEnvironments s'.environments :=
    (congrArg f h.rest).trans (hf s s'.environments)
  refine ⟨?_, ?_, fun env => ?_⟩
  · rw [hrest, withEnvironments, withEnvironments]
  · rw [hrest, hsame]
    exact h.size
  · have henv := h.bindings env
    rw [State.bindings] at henv ⊢
    rw [hrest, hsame]
    exact henv

theorem marked (h : s.Occupies x s') : s.marked.Occupies x s'.marked :=
  h.aside (f := State.marked) (fun _ _ => rfl) rfl

theorem switch (h : s.Occupies x s') (on : Bool) :
    { s with tracing := on }.Occupies x { s' with tracing := on } :=
  h.aside (f := fun s => { s with tracing := on }) (fun _ _ => rfl) rfl

theorem trace (h : s.Occupies x s') (e : Event) : (s.trace e).Occupies x (s'.trace e) :=
  h.aside (f := State.trace e) (fun s environments => s.trace_withEnvironments environments e)
    (environments_trace e s)

theorem grown (h : s.Occupies x s') (hb : b.Occupies x b') :
    (s.grown b).Occupies x (s'.grown b') := by
  refine ⟨?_, ?_, fun env => ?_⟩
  · rw [h.rest]
    rfl
  · rw [size_grown, size_grown, h.size]
  · rw [bindings_grown, bindings_grown, h.size]
    split
    · exact hb
    · exact h.bindings env

theorem setBindings (h : s.Occupies x s') (env : EnvId) (hb : b.Occupies x b') :
    (s.setBindings env b).Occupies x (s'.setBindings env b') := by
  refine ⟨?_, ?_, fun other => ?_⟩
  · rw [h.rest]
    rfl
  · simp only [State.setBindings, Array.size_setIfInBounds, h.size]
  · rw [bindings_setBindings, bindings_setBindings, h.size]
    split
    · exact hb
    · exact h.bindings other

theorem bind (h : s.Occupies x s') (env : EnvId) (y : String) (v : Value) :
    (s.bind env y v).Occupies x (s'.bind env y v) :=
  h.setBindings env ((h.bindings env).insert y v)

/-- A state with one more binding. -/
theorem bind_new (s : State) (env : EnvId) (x : String) (v : Value) :
    s.Occupies x (s.bind env x v) := by
  refine ⟨rfl, size_bind s env x v, fun other => ?_⟩
  rw [State.bind, bindings_setBindings]
  split
  · next h =>
      obtain ⟨rfl, -⟩ := h
      exact .insert_new _ x v
  · exact .refl x _

/-- A call answers the same in both states. -/
theorem call (h : s.Occupies x s') {p : Native} {args : Value} {result : Except Error Answer}
    {t : State} (hcall : Procedures.call p args s = (result, t)) :
    ∃ t', Procedures.call p args s' = (result, t') ∧ t.Occupies x t' := by
  have hconfined : Confined (Answer.All fun _ => True) (Procedures.call p args) :=
    Procedures.call_confined ⟨fun _ _ => trivial, by simp⟩ p (fun _ _ _ => trivial) trivial
  have hunseen (s : State) (environments : Array Bindings) :=
    Procedures.call_aside (withEnvironments_aside environments) p args s
  have hcalls : (Procedures.call p args s).2.Occupies x (Procedures.call p args s').2 :=
    h.aside (f := fun s => (Procedures.call p args s).2)
      (fun s environments => congrArg Prod.snd (hunseen s environments))
      (hconfined s).1.environments
  have hsame : (Procedures.call p args s').1 = (Procedures.call p args s).1 :=
    calc
      _ = (Procedures.call p args (s.withEnvironments s'.environments)).1 :=
        congrArg (fun s => (Procedures.call p args s).1) h.rest
      _ = (Procedures.call p args s).1 := by rw [hunseen]
  rw [hcall] at hcalls hsame
  exact ⟨(Procedures.call p args s').2, Prod.ext hsame rfl, hcalls⟩

end State.Occupies

end States

/-! ### Two runs side by side -/

section Steps

variable {x : String} {task inner : Task} {pushed : List Frame} {s t s' : State}
  {r : Except Error Value} {m m' n : Moment}

theorem Task.ne_of_refersTo_symbol {mark : Mark} {y : String} {env : EnvId}
    (h : (Task.expression (.symbol mark y) env).refersTo x = false) : y ≠ x := by
  simpa [refersTo] using h

theorem Task.ne_of_refersTo_pair {mark mark' : Mark} {y : String} {operands : Value} {env : EnvId}
    (h : (Task.expression (.pair mark (.symbol mark' y) operands) env).refersTo x = false) :
    y ≠ x := by
  simpa [refersTo] using h

/-- What ends a task that does not look the name up ends it in the other run too. -/
theorem Task.Ends.occupied (h : task.Ends s r t) (hx : task.refersTo x = false)
    (hs : s.Occupies x s') : ∃ t', task.Ends s' r t' ∧ t.Occupies x t' := by
  cases h with
  | bound h =>
      have hy := Task.ne_of_refersTo_symbol hx
      exact ⟨_, .bound (by rw [hs.lookup_eq _ hy, h]), hs.trace _⟩
  | free h =>
      have hy := Task.ne_of_refersTo_symbol hx
      exact ⟨_, .free (by rw [hs.lookup_eq _ hy, h]), hs.trace _⟩
  | constant hsymbol hpair => exact ⟨_, .constant hsymbol hpair, hs.trace _⟩
  | improper h => exact ⟨_, .improper h, hs.trace _⟩
  | unknown hlist hfree hk =>
      have hy := Task.ne_of_refersTo_pair hx
      exact ⟨_, .unknown hlist (by rw [hs.lookup_eq _ hy, hfree]) hk, hs.trace _⟩
  | malformed h => exact ⟨_, .malformed h, hs⟩
  | quote h => exact ⟨_, .quote h, hs⟩
  | @lambda _ env operands _ body formal h hformal =>
      have hends : (Task.form .lambda operands env).Ends s'
          (.ok (.lambda ⟨s'.nextMark⟩ ⟨s'.environments.size⟩ formal body))
          (s'.grown (s'.bindings env)).marked := .lambda h hformal
      rw [hs.nextMark_eq, hs.size] at hends
      exact ⟨_, hends, (hs.grown (hs.bindings _)).marked⟩
  | badFormals h hformal => exact ⟨_, .badFormals h hformal, hs⟩
  | badTarget h htarget => exact ⟨_, .badTarget h htarget, hs⟩
  | @redefinition _ _ env _ _ _ h hbound =>
      exact ⟨_, .redefinition h ((hs.bindings env).contains_of_contains hbound), hs⟩
  | @currentEnvironment _ env operands h =>
      have hends : (Task.form .currentEnvironment operands env).Ends s'
          (.ok (.environment ⟨s'.nextMark⟩ env)) s'.marked := .currentEnvironment h
      rw [hs.nextMark_eq] at hends
      exact ⟨_, hends, hs.marked⟩
  | @toggleDebug _ env operands h =>
      have hends : (Task.form .toggleDebug operands env).Ends s'
          (.ok (.boolean ⟨s'.nextMark⟩ !s'.tracing))
          { s'.marked with tracing := !s'.tracing } := .toggleDebug h
      rw [hs.nextMark_eq, hs.tracing_eq] at hends
      exact ⟨_, hends, hs.marked.switch _⟩
  | noOperands h => exact ⟨_, .noOperands h, hs⟩
  | rejected h => exact ⟨_, .rejected h, hs.trace _⟩
  | answered h =>
      obtain ⟨t', hcall, ht⟩ := (hs.trace _).call h
      exact ⟨t', .answered hcall, ht⟩
  | refused h =>
      obtain ⟨t', hcall, ht⟩ := (hs.trace _).call h
      exact ⟨t', .refused hcall, ht⟩
  | notProcedure h => exact ⟨_, .notProcedure h, hs.trace _⟩

/-- What goes on as another task does so in the other run too, unless it is the definition of the name
and the name is bound there. -/
theorem Task.Enters.occupied (h : task.Enters s inner pushed t) (hx : task.refersTo x = false)
    (hs : s.Occupies x s') :
    (∃ t', task.Enters s' inner pushed t' ∧ t.Occupies x t') ∨
      task.Ends s' (.error (.redefinition x)) s' := by
  cases h with
  | named hlist h =>
      have hy := Task.ne_of_refersTo_pair hx
      exact .inl ⟨_, .named hlist (by rw [hs.lookup_eq _ hy, h]), hs.trace _⟩
  | keyword hlist hfree hk =>
      have hy := Task.ne_of_refersTo_pair hx
      exact .inl ⟨_, .keyword hlist (by rw [hs.lookup_eq _ hy, hfree]) hk, hs.trace _⟩
  | computed hlist hsymbol => exact .inl ⟨_, .computed hlist hsymbol, hs.trace _⟩
  | @define _ _ env y _ _ h hfree =>
      cases hbound : (s'.bindings env).contains y with
      | false => exact .inl ⟨_, .define h hbound, hs⟩
      | true =>
          obtain rfl := (hs.bindings env).eq_of_contains hfree hbound
          exact .inr (.redefinition h hbound)
  | test alternate h => exact .inl ⟨_, .test alternate h, hs⟩
  | call => exact .inl ⟨_, .call, hs⟩
  | operands => exact .inl ⟨_, .operands, hs⟩
  | @body _ m env closure body args formal own h =>
      have henters : (Task.application (.lambda m closure formal body) args env).Enters s'
          (.expression body ⟨s'.environments.size⟩) []
          ((s'.trace (.applying (.lambda m closure formal body) args)).grown
            (callBindings (s'.bindings env) (s'.bindings closure) own)) := .body h
      rw [hs.size] at henters
      have hbindings := (hs.bindings env).callBindings (hs.bindings closure) own
      exact .inl ⟨_, henters, (hs.trace _).grown hbindings⟩
  | @explicit _ _ m env inner expr args p h =>
      obtain ⟨t', hcall, ht⟩ := (hs.trace _).call h
      have henters : (Task.application (.native m p) args env).Enters s' (.expression expr inner)
          [.untraced t'.tracing] { t' with tracing := false } := .explicit hcall
      rw [ht.tracing_eq] at henters
      exact .inl ⟨_, henters, ht.switch false⟩

/-- An answer comes back to the same in the other run, unless it is the value of the name and the name
is bound there. -/
theorem Frame.Resumes.occupied {f : Frame} {control : Control}
    (h : f.Resumes r s control pushed t) (hs : s.Occupies x s') :
    (∃ t', f.Resumes r s' control pushed t' ∧ t.Occupies x t') ∨
      f.Resumes r s' (.answer (.error (.redefinition x))) [] s' := by
  cases h with
  | operator => exact .inl ⟨_, .operator, hs⟩
  | arguments => exact .inl ⟨_, .arguments, hs⟩
  | element => exact .inl ⟨_, .element, hs⟩
  | @prepend _ v vs =>
      have hresumes : Resumes (.prepend v) (.ok vs) s'
          (.answer (.ok (.pair ⟨s'.nextMark⟩ v vs))) [] s'.marked := .prepend
      rw [hs.nextMark_eq] at hresumes
      exact .inl ⟨_, hresumes, hs.marked⟩
  | consequent htrue => exact .inl ⟨_, .consequent htrue, hs⟩
  | alternate hfalse => exact .inl ⟨_, .alternate hfalse, hs⟩
  | @noAlternate _ env v consequent hfalse =>
      have hresumes : Resumes (.test consequent none env) (.ok v) s'
          (.answer (.ok (.unspecified ⟨s'.nextMark⟩))) [] s'.marked := .noAlternate hfalse
      rw [hs.nextMark_eq] at hresumes
      exact .inl ⟨_, hresumes, hs.marked⟩
  | @define _ env y v hfree =>
      cases hbound : (s'.bindings env).contains y with
      | false =>
          have hresumes := Resumes.define (v := v) hbound
          rw [hs.nextMark_eq] at hresumes
          exact .inl ⟨_, hresumes, (hs.bind env y v).marked⟩
      | true =>
          obtain rfl := (hs.bindings env).eq_of_contains hfree hbound
          exact .inr (.definedMeanwhile hbound)
  | @definedMeanwhile _ env _ _ hbound =>
      exact .inl ⟨_, .definedMeanwhile ((hs.bindings env).contains_of_contains hbound), hs⟩
  | untraced => exact .inl ⟨_, .untraced, hs.switch _⟩
  | fails h => exact .inl ⟨_, .fails h, hs⟩

/-- The other run takes the same transition, or is refused the name. -/
theorem Transition.occupied (h : Transition m m') (hx : m.refersTo x = false)
    (hm : m.Occupies x n) :
    (∃ n', Transition n n' ∧ m'.Occupies x n') ∨
      ∃ frames t, Transition n ⟨.answer (.error (.redefinition x)), frames, t⟩ := by
  obtain ⟨control, frames, s'⟩ := n
  obtain ⟨rfl, rfl, hs⟩ := hm
  cases h with
  | ends h =>
      obtain ⟨t', hends, ht⟩ := h.occupied hx hs
      exact .inl ⟨_, .ends hends, rfl, rfl, ht⟩
  | enters h =>
      rcases h.occupied hx hs with ⟨t', henters, ht⟩ | hends
      · exact .inl ⟨_, .enters henters, rfl, rfl, ht⟩
      · exact .inr ⟨_, _, .ends hends⟩
  | resumes h =>
      rcases h.occupied hs with ⟨t', hresumes, ht⟩ | hrefused
      · exact .inl ⟨_, .resumes hresumes, rfl, rfl, ht⟩
      · exact .inr ⟨_, _, .resumes hrefused⟩

/-- As long as the name is not looked up, the other run keeps up or is refused the name. -/
theorem Passes.occupied {moves : List Move} (h : Passes Transition m moves m')
    (hx : ∀ move ∈ moves, move.before.refersTo x = false) (hm : m.Occupies x n) :
    (∃ n', Transitions n n' ∧ m'.Occupies x n') ∨
      ∃ frames t, Transitions n ⟨.answer (.error (.redefinition x)), frames, t⟩ := by
  induction h with
  | refl => exact .inl ⟨n, .refl, hm⟩
  | tail _ hmove ih =>
      rcases ih fun move hin => hx move (List.mem_cons_of_mem _ hin) with
        ⟨n', hfollows, hn'⟩ | hrefused
      · rcases hmove.occupied (hx _ List.mem_cons_self) hn' with
          ⟨n'', hnext, hn''⟩ | ⟨frames, t, hnext⟩
        · exact .inl ⟨n'', hfollows.tail hnext, hn''⟩
        · exact .inr ⟨frames, t, hfollows.tail hnext⟩
      · exact .inr hrefused

/-- A name that is bound stays bound. -/
theorem State.Extends.contains (h : s.Extends t) {env : EnvId}
    (hbound : (s.bindings env).contains x = true) : (t.bindings env).contains x = true := by
  obtain ⟨v, hv⟩ := Option.isSome_iff_exists.mp hbound
  exact Option.isSome_iff_exists.mpr ⟨v, h.lookup_eq env x v hv⟩

theorem transitions_extends (h : Transitions m m') : m.state.Extends m'.state := by
  induction h with
  | refl => exact .refl _
  | tail _ hmove ih => exact ih.trans (hmove.steady State.extends_steady)

/-- Nothing that waits for an answer makes up for an error. -/
theorem transitions_of_error (e : Error) (frames : List Frame) (s : State) :
    ∃ t, Transitions ⟨.answer (.error e), frames, s⟩ (.ending (.error e) t) := by
  induction frames generalizing s with
  | nil => exact ⟨s, .refl⟩
  | cons f frames ih =>
      cases hcatches : f.catches with
      | false =>
          obtain ⟨t, h⟩ := ih s
          exact ⟨t, (Frame.Resumes.fails hcatches).followed h⟩
      | true =>
          obtain ⟨tracing, rfl⟩ : ∃ tracing, f = .untraced tracing := by
            cases f with
            | untraced tracing => exact ⟨tracing, rfl⟩
            | _ => cases hcatches
          obtain ⟨t, h⟩ := ih { s with tracing := tracing }
          exact ⟨t, Frame.Resumes.untraced.followed h⟩

end Steps

/-! ### Applications -/

namespace Application

variable {c : Application} {s s' : State} {caller caller' : EnvId} {x : String}

/-- The state in which the body begins, in the environment that was made for it. -/
def entered (c : Application) (s : State) (caller : EnvId) (own : Option (String × Value)) :
    State :=
  (s.trace (.applying c.procedure c.args)).grown
    (callBindings (s.bindings caller) (s.bindings c.closure) own)

/-- Made by a caller, the application comes to a definition of the name in the environment of the
body, and the name has not been looked up before. -/
def DefinesLocally (c : Application) (s : State) (caller : EnvId) (x : String) : Prop :=
  ∃ own moves m operands e frames t,
    c.formal.accept c.args = .ok own ∧
    Passes Transition (.begin c.body ⟨s.environments.size⟩ (c.entered s caller own)) moves
      ⟨.task (.form .define operands ⟨s.environments.size⟩), frames, t⟩ ∧
    operands.elements = [.symbol m x, e] ∧
    ∀ move ∈ moves, move.before.refersTo x = false

/-- Made by a caller, the application can be completed, and it always fails like this. -/
def FailsWith (c : Application) (s : State) (caller : EnvId) (e : Error) : Prop :=
  (∃ depth rounds t, c.complete depth rounds caller s = some (.error e, t)) ∧
    ∀ depth rounds r t, c.complete depth rounds caller s = some (r, t) → r = .error e

theorem failsWith_of_derives {e : Error} {t : State}
    (h : (Task.application c.procedure c.args caller).Derives s (.error e) t) :
    c.FailsWith s caller e := by
  obtain ⟨depth, rounds, hrun⟩ := ((eval_iff_derives s t (.error e)).2 _ _ _).mpr h
  refine ⟨⟨depth, rounds, t, hrun⟩, fun depth' rounds' r t' hrun' => ?_⟩
  exact (Prod.mk.inj (complete_unique hrun' hrun)).1

/-- Two callers give a body the same to see, except for the name that the second one has, if they agree
on what is neither the formal nor captured. -/
theorem callBindings_occupies {own : Option (String × Value)}
    (haccept : c.formal.accept c.args = .ok own) (hs : s.Occupies x s')
    (hcaller : ∀ y, y ≠ x → c.leaves s y = true → s'.lookup caller' y = s.lookup caller y)
    (hbound : (s'.bindings caller').contains x = true) :
    (callBindings (s.bindings caller) (s.bindings c.closure) own).Occupies x
      (callBindings (s'.bindings caller') (s'.bindings c.closure) own) where
  find?_eq y hy := by
    rw [find?_callBindings, find?_callBindings, (hs.bindings c.closure).find?_eq y hy,
      ← Option.or_assoc, ← Option.or_assoc]
    change (c.known s own y).or (s'.lookup caller' y) = (c.known s own y).or (s.lookup caller y)
    cases hknown : c.known s own y with
    | some v => rfl
    | none =>
        have hleaves : c.leaves s y = true := by
          rw [← isNone_known haccept, hknown]
          rfl
        rw [hcaller y hy hleaves]
  contains _ := contains_callBindings hbound own

/-- A caller that has the name makes the application fail, be it in another state or another caller in
the same one. -/
theorem DefinesLocally.failsWith (h : c.DefinesLocally s caller x) (hs : s.Occupies x s')
    (hcaller : ∀ y, y ≠ x → c.leaves s y = true → s'.lookup caller' y = s.lookup caller y)
    (hbound : (s'.bindings caller').contains x = true) :
    c.FailsWith s' caller' (.redefinition x) := by
  obtain ⟨own, moves, m, operands, e, frames, t, haccept, hpasses, hoperands, hmoves⟩ := h
  let begin' : Moment := .begin c.body ⟨s.environments.size⟩ (c.entered s' caller' own)
  have henters : (Task.application c.procedure c.args caller').Enters s'
      (.expression c.body ⟨s'.environments.size⟩) [] (c.entered s' caller' own) :=
    .body haccept
  rw [hs.size] at henters
  have hbegin :
      (Moment.begin c.body ⟨s.environments.size⟩ (c.entered s caller own)).Occupies x begin' :=
    ⟨rfl, rfl, (hs.trace _).grown (callBindings_occupies haccept hs hcaller hbound)⟩
  have hbody : (begin'.state.bindings ⟨s.environments.size⟩).contains x = true := by
    change ((c.entered s' caller' own).bindings _).contains x = true
    rw [entered, State.bindings_grown, State.environments_trace, hs.size, if_pos rfl]
    exact contains_callBindings hbound own
  -- The other run comes to the definition and is refused there, if it was not refused before.
  have hrefused : ∃ frames t,
      Transitions begin' ⟨.answer (.error (.redefinition x)), frames, t⟩ := by
    rcases hpasses.occupied hmoves hbegin with ⟨⟨control, frames', t'⟩, hfollows, hn⟩ | hrefused
    · obtain ⟨hcontrol, -, -⟩ := hn
      cases hcontrol
      have hstill := (transitions_extends hfollows).contains hbody
      exact ⟨_, _, hfollows.tail (.ends (.redefinition hoperands hstill))⟩
    · exact hrefused
  obtain ⟨frames', t', hrefused⟩ := hrefused
  obtain ⟨u, herror⟩ := transitions_of_error (.redefinition x) frames' t'
  exact failsWith_of_derives
    (transitions_iff_derives.mp (henters.followed (hrefused.trans herror)))

/-- A caller that was given the name makes the application fail. -/
theorem DefinesLocally.failsWith_bind (h : c.DefinesLocally s caller x)
    (hcaller : caller.index < s.environments.size) (w : Value) :
    c.FailsWith (s.bind caller x w) caller (.redefinition x) := by
  have hs := State.Occupies.bind_new s caller x w
  refine h.failsWith hs (fun y hy _ => hs.lookup_eq caller hy) ?_
  have hlookup := State.lookup_bind s caller caller x x w hcaller
  exact Option.isSome_iff_exists.mpr ⟨w, hlookup.trans (if_pos ⟨rfl, rfl⟩)⟩

end Application

/-- A definition in a body needs a name that the caller leaves free.  Take an application that, made by
some caller, comes to a definition of a name in the environment of its body, without having looked the
name up before.  It fails as a redefinition of that name when the caller is given a value for the name
first, whatever the value.  It also fails when it is made by another caller that has the name and agrees
with the first one on every other name that is neither the formal nor captured, as the environment of
the body does once the name is defined there. -/
theorem local_define_refused {c : Application} {s : State} {caller : EnvId} {x : String}
    (hdefines : c.DefinesLocally s caller x) (hcaller : caller.index < s.environments.size) :
    (∀ w, c.FailsWith (s.bind caller x w) caller (.redefinition x)) ∧
    ∀ caller' w, s.lookup caller' x = some w →
      (∀ y, y ≠ x → c.leaves s y = true → s.lookup caller' y = s.lookup caller y) →
      c.FailsWith s caller' (.redefinition x) := by
  refine ⟨hdefines.failsWith_bind hcaller, fun caller' w hw hsame => ?_⟩
  have hbound : (s.bindings caller').contains x = true := Option.isSome_iff_exists.mpr ⟨w, hw⟩
  exact hdefines.failsWith (.refl x s) hsame hbound

/-- The application of `(lambda () ((lambda (u) x) (define x 1)))`, which captured the environment
1, to no arguments. -/
def Application.defining : Application :=
  let inner : Value :=
    .ofElements [.symbol ⟨0⟩ "lambda", .ofElements [.symbol ⟨0⟩ "u"], .symbol ⟨0⟩ "x"]
  let definition : Value :=
    .ofElements [.symbol ⟨0⟩ "define", .symbol ⟨0⟩ "x", .number ⟨0⟩ 1]
  ⟨⟨0⟩, ⟨1⟩, .nothing, .ofElements [inner, definition], .nil ⟨0⟩⟩

/-- A caller that binds nothing, an environment that binds nothing to capture, and a caller that has
`x`. -/
def State.callers : State :=
  .ofEntries [[], [], [("x", .number ⟨0⟩ 5)]]

namespace Application

theorem defining_definesLocally : defining.DefinesLocally .callers ⟨0⟩ "x" := by
  have hpasses : Passes Transition
      (.begin defining.body ⟨3⟩ (defining.entered .callers ⟨0⟩ none)) _
      ⟨.task (.form .define _ ⟨3⟩), _, _⟩ :=
    Passes.refl
      |>.tail (.enters (.computed rfl rfl))
      |>.tail (.enters (.keyword (k := .lambda) rfl rfl rfl))
      |>.tail (.ends (.lambda rfl rfl))
      |>.tail (.resumes .operator)
      |>.tail (.enters .call)
      |>.tail (.enters .operands)
      |>.tail (.enters (.keyword (k := .define) rfl rfl rfl))
  exact ⟨none, _, _, _, _, _, _, rfl, hpasses, rfl, by decide⟩

/-- A caller without `x` has 1 from it. -/
theorem defining_answers :
    ∃ t, defining.complete 9 9 ⟨0⟩ .callers = some (.ok (.number ⟨0⟩ 1), t) := by
  have hanswer : (defining.complete 9 9 ⟨0⟩ .callers).map Prod.fst =
      some (.ok (.number ⟨0⟩ 1)) := by decide +kernel
  obtain ⟨⟨_, t⟩, hrun, rfl⟩ := Option.map_eq_some_iff.mp hanswer
  exact ⟨t, hrun⟩

/-- A caller without `x` has 1 from the application, where `x` is looked up after it was defined.  With
`x` bound to 5 it has an error, and so has another caller that has `x`. -/
theorem local_define_refused_defining :
    (∃ depth rounds t,
      defining.complete depth rounds ⟨0⟩ .callers = some (.ok (.number ⟨0⟩ 1), t)) ∧
    defining.DefinesLocally .callers ⟨0⟩ "x" ∧ 0 < State.callers.environments.size ∧
    defining.FailsWith (State.callers.bind ⟨0⟩ "x" (.number ⟨0⟩ 5)) ⟨0⟩ (.redefinition "x") ∧
    defining.FailsWith .callers ⟨2⟩ (.redefinition "x") := by
  obtain ⟨hbound, hother⟩ := local_define_refused defining_definesLocally (by decide)
  refine ⟨⟨9, 9, defining_answers⟩, defining_definesLocally, by decide, hbound _, ?_⟩
  refine hother ⟨2⟩ (.number ⟨0⟩ 5) rfl fun y hy _ => ?_
  calc
    State.callers.lookup ⟨2⟩ y = (Bindings.insert ∅ "x" (.number ⟨0⟩ 5)).find? y := rfl
    _ = State.callers.lookup ⟨0⟩ y := by
      rw [Bindings.find?_insert, if_neg hy]
      rfl

/-- Whether a body can define a name does depend on its caller: there is an application whose body
defines a name that is neither its formal nor captured, and looks it up only afterwards; made by a
caller that does not bind the name it comes to a value, and made by the same caller with the name
bound it comes to no value at all. -/
theorem local_define_depends_on_caller :
    ∃ (c : Application) (s : State) (caller : EnvId) (x : String) (w : Value),
      caller.index < s.environments.size ∧ c.leaves s x = true ∧
      (s.bindings caller).contains x = false ∧ c.DefinesLocally s caller x ∧
      (∃ depth rounds v t, c.complete depth rounds caller s = some (.ok v, t)) ∧
      ∀ depth rounds v t, c.complete depth rounds caller (s.bind caller x w) ≠ some (.ok v, t) := by
  obtain ⟨t, hanswer⟩ := defining_answers
  refine ⟨defining, .callers, ⟨0⟩, "x", .number ⟨0⟩ 5, by decide, by decide, rfl,
    defining_definesLocally, ⟨9, 9, _, t, hanswer⟩, fun depth rounds v t h => ?_⟩
  cases (defining_definesLocally.failsWith_bind (by decide) (.number ⟨0⟩ 5)).2 _ _ _ _ h

end Application

end TinyLisp
