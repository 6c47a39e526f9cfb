import TinyLisp.Proofs.Environments.Closures
import TinyLisp.Proofs.Text.Readable

/-!
Code defines only where it can get to.  What an evaluation may define into is fixed when it starts:
the environments that its expression and its environment lead to, and all that will be made.  Main
statement: `eval_frame`, every other environment is left as it was.
-/

namespace TinyLisp

open Evaluator Run

/-! ### What values lead to -/

/-- The values met on the way from some values: the halves of pairs, the bodies of lambdas and what
these captured, and what is bound in environments. -/
inductive State.Meets (s : State) (roots : Set Value) : Value → Prop where
  | root {v} (h : v ∈ roots) : Meets s roots v
  | first {m first rest} (h : Meets s roots (.pair m first rest)) : Meets s roots first
  | rest {m first rest} (h : Meets s roots (.pair m first rest)) : Meets s roots rest
  | body {m closure formal body} (h : Meets s roots (.lambda m closure formal body)) :
      Meets s roots body
  | captured {m closure formal body x v} (h : Meets s roots (.lambda m closure formal body))
      (hv : s.lookup closure x = some v) : Meets s roots v
  | bound {m env x v} (h : Meets s roots (.environment m env))
      (hv : s.lookup env x = some v) : Meets s roots v

/-- An environment that is met as a value on the way from some values. -/
def State.Reaches (s : State) (roots : Set Value) (env : EnvId) : Prop :=
  ∃ m, s.Meets roots (.environment m env)

/-- Where an expression and the environment it is evaluated in lead from. -/
def evaluationRoots (expr : Value) (env : EnvId) : Set Value :=
  { v | v = expr ∨ ∃ m, v = .environment m env }

/-- Where the application of a lambda leads from: its body, what it captured, the arguments and what
the caller has bound, but not the environment of the caller. -/
def State.applicationRoots (s : State) (closure : EnvId) (body args : Value) (caller : EnvId) :
    Set Value :=
  { v | v = body ∨ v = args ∨ (∃ x, s.lookup closure x = some v) ∨ ∃ x, s.lookup caller x = some v }

/-! ### Realms -/

/-- The environments that code may define into, those that its lambdas captured, and the first free
place when it started; what is made later belongs to both kinds. -/
structure Realm where
  opened : Set EnvId
  captured : Set EnvId
  firstFree : Nat
  opened_of_le : ∀ env : EnvId, firstFree ≤ env.index → env ∈ opened
  captured_of_le : ∀ env : EnvId, firstFree ≤ env.index → env ∈ captured

/-- A value that leads only to environments and closures of the realm. -/
def Value.Within (R : Realm) : Value → Prop
  | .pair _ first rest => first.Within R ∧ rest.Within R
  | .lambda _ closure _ body => closure ∈ R.captured ∧ body.Within R
  | .environment _ env => env ∈ R.opened
  | _ => True

theorem Value.within_hereditary (R : Realm) : Value.Hereditary (Value.Within R) := by
  refine ⟨?_, fun _ _ _ => Iff.rfl⟩
  intro v hv
  cases v with
  | pair m first rest => simp [Value.isPlain] at hv
  | lambda m closure formal body => simp [Value.isPlain] at hv
  | environment m env => simp [Value.isPlain] at hv
  | _ => trivial

/-- The environments and closures of the realm bind only values within it. -/
structure State.Within (R : Realm) (s : State) : Prop where
  size_le : R.firstFree ≤ s.environments.size
  bound : ∀ env, env ∈ R.opened ∨ env ∈ R.captured →
    ∀ x v, s.lookup env x = some v → v.Within R

/-- A task on values within the realm, at one of its environments. -/
def Task.Within (R : Realm) (task : Task) : Prop :=
  (∀ v ∈ task.values, v.Within R) ∧ task.env ∈ R.opened

namespace Task

variable {R : Realm} {v w : Value} {env : EnvId}

theorem within_expression :
    (expression v env).Within R ↔ v.Within R ∧ env ∈ R.opened := by
  simp [Within, values, Task.env]

theorem within_form (k : Keyword) :
    (form k v env).Within R ↔ v.Within R ∧ env ∈ R.opened := by
  simp [Within, values, Task.env]

theorem within_operands :
    (operands v env).Within R ↔ v.Within R ∧ env ∈ R.opened := by
  simp [Within, values, Task.env]

theorem within_call :
    (call v w env).Within R ↔ v.Within R ∧ w.Within R ∧ env ∈ R.opened := by
  simp [Within, values, Task.env, and_assoc]

theorem within_application :
    (application v w env).Within R ↔ v.Within R ∧ w.Within R ∧ env ∈ R.opened := by
  simp [Within, values, Task.env, and_assoc]

/-- What a special form evaluates is an element of its operands. -/
theorem Within.element {k : Keyword} (h : (form k w env).Within R) (hv : v ∈ w.elements) :
    (expression v env).Within R := by
  obtain ⟨hoperands, henv⟩ := (within_form k).mp h
  have hmember := (Value.within_hereditary R).inherited.of_mem_elements hoperands hv
  exact within_expression.mpr ⟨hmember, henv⟩

end Task

/-- An answer within the realm; a failure is one. -/
def Realm.Admits (R : Realm) (r : Except Error Value) : Prop :=
  ∀ v, r = .ok v → v.Within R

/-- The second state is still within the realm, and everything outside it is as it was. -/
structure Realm.Keeps (R : Realm) (s t : State) : Prop where
  state : t.Within R
  frame : ∀ env, env ∉ R.opened → t.bindings env = s.bindings env

section Realm

variable {R : Realm} {s t u : State} {r : Except Error Value}

theorem Realm.admits_ok {v : Value} : R.Admits (.ok v) ↔ v.Within R := by
  constructor
  · intro h
    exact h v rfl
  · intro hv w hw
    cases hw
    exact hv

theorem Realm.admits_error (e : Error) : R.Admits (.error e) := by
  intro v hv
  cases hv

theorem Realm.Keeps.trans (h : R.Keeps s t) (h' : R.Keeps t u) : R.Keeps s u where
  state := h'.state
  frame := fun env henv => by rw [h'.frame env henv, h.frame env henv]

theorem State.Within.of_environments (hs : s.Within R) (h : t.environments = s.environments) :
    R.Keeps s t := by
  refine ⟨⟨?_, ?_⟩, ?_⟩
  · rw [h]
    exact hs.size_le
  · intro env henv x v hv
    rw [lookup, bindings, h] at hv
    exact hs.bound env henv x v hv
  · intro env _
    rw [bindings, bindings, h]

theorem State.Within.trace (hs : s.Within R) (e : Event) : R.Keeps s (s.trace e) :=
  hs.of_environments (State.environments_trace e s)

theorem State.Within.tracing (hs : s.Within R) (on : Bool) :
    R.Keeps s { s with tracing := on } :=
  hs.of_environments rfl

theorem State.Within.marked (hs : s.Within R) : R.Keeps s s.marked :=
  hs.of_environments rfl

/-- A new environment is in the realm and binds what may be bound there. -/
theorem State.Within.grown (hs : s.Within R) {b : Bindings}
    (hb : ∀ x v, b.find? x = some v → v.Within R) : R.Keeps s (s.grown b) := by
  refine ⟨⟨?_, ?_⟩, ?_⟩
  · rw [size_grown]
    exact Nat.le_succ_of_le hs.size_le
  · intro env henv x v hv
    rw [lookup, bindings_grown] at hv
    split at hv
    · exact hb x v hv
    · exact hs.bound env henv x v hv
  · intro env henv
    rw [bindings_grown, if_neg]
    rintro rfl
    exact henv (R.opened_of_le _ hs.size_le)

/-- Defining in an environment of the realm leaves all others as they were. -/
theorem State.Within.bind (hs : s.Within R) {env : EnvId} (x : String) {v : Value}
    (henv : env ∈ R.opened) (hv : v.Within R) : R.Keeps s (s.bind env x v) := by
  refine ⟨⟨?_, ?_⟩, ?_⟩
  · rw [size_bind]
    exact hs.size_le
  · intro other hother y w hw
    rw [lookup, State.bind, bindings_setBindings] at hw
    split at hw
    · rw [Bindings.find?_insert] at hw
      split at hw
      · cases hw
        exact hv
      · exact hs.bound env (.inl henv) y w hw
    · exact hs.bound other hother y w hw
  · intro other hother
    rw [State.bind, bindings_setBindings, if_neg]
    rintro ⟨rfl, _⟩
    exact hother henv

/-- A body is given to see what its caller sees, what its lambda captured and the arguments. -/
theorem Realm.callBindings_within {env closure : EnvId} {args : Value}
    (henv : ∀ x v, s.lookup env x = some v → v.Within R)
    (hclosure : ∀ x v, s.lookup closure x = some v → v.Within R) (hargs : args.Within R)
    {formal : Formal} {own : Option (String × Value)} (h : formal.accept args = .ok own)
    (x : String) (v : Value)
    (hv : (callBindings (s.bindings env) (s.bindings closure) own).find? x = some v) :
    v.Within R := by
  rw [find?_callBindings, Option.or_eq_some_iff, Option.or_eq_some_iff] at hv
  rcases hv with hown | ⟨_, hcaptured | ⟨_, hcaller⟩⟩
  · exact (Value.within_hereditary R).inherited.of_accept hargs h hown
  · exact hclosure x v hcaptured
  · exact henv x v hcaller

theorem Procedures.call_within {p : Native} {args : Value} {m : Mark}
    {result : Except Error Answer} (hargs : args.Within R)
    (h : Procedures.call p args (s.trace (.applying (.native m p) args)) = (result, t)) :
    t.environments = s.environments ∧ Yields result (Answer.All (Value.Within R)) := by
  have hcall := call_confined (Value.within_hereditary R) p (fun _ _ _ => trivial) hargs
    (s.trace (.applying (.native m p) args))
  rw [h] at hcall
  exact ⟨hcall.1.environments.trans (State.environments_trace _ s), hcall.2⟩

/-! ### Evaluation stays within its realm -/

/-- A task that ends makes at most a closure, with the bindings of an environment of the realm. -/
theorem Task.Ends.keeps {task : Task} (h : task.Ends s r t) (hs : s.Within R)
    (htask : task.Within R) : R.Keeps s t ∧ R.Admits r := by
  have hP := (Value.within_hereditary R).inherited
  obtain ⟨hvalues, henv⟩ := htask
  cases h with
  | bound h =>
      exact ⟨hs.of_environments (by simp), R.admits_ok.mpr (hs.bound _ (.inl henv) _ _ h)⟩
  | constant =>
      exact ⟨hs.of_environments (by simp), R.admits_ok.mpr (hvalues _ List.mem_cons_self)⟩
  | @quote _ _ v operands h =>
      have hv : v.Within R := hP.of_mem_elements (hvalues operands List.mem_cons_self) (by simp [h])
      exact ⟨hs.of_environments rfl, R.admits_ok.mpr hv⟩
  | @lambda _ env operands formals body formal h _ =>
      have hbody : body.Within R :=
        hP.of_mem_elements (hvalues operands List.mem_cons_self) (by simp [h])
      have hgrown := hs.grown (b := s.bindings env) (hs.bound env (.inl henv))
      exact ⟨hgrown.trans (hgrown.state.of_environments rfl),
        R.admits_ok.mpr ⟨R.captured_of_le _ hs.size_le, hbody⟩⟩
  | currentEnvironment => exact ⟨hs.of_environments rfl, R.admits_ok.mpr henv⟩
  | noOperands =>
      exact ⟨hs.of_environments rfl, R.admits_ok.mpr (hvalues _ List.mem_cons_self)⟩
  | answered h =>
      have hargs := hvalues _ (List.mem_cons_of_mem _ List.mem_cons_self)
      obtain ⟨henvironments, hanswer⟩ := Procedures.call_within hargs h
      exact ⟨hs.of_environments henvironments, R.admits_ok.mpr (hanswer _ rfl)⟩
  | refused h =>
      have hargs := hvalues _ (List.mem_cons_of_mem _ List.mem_cons_self)
      exact ⟨hs.of_environments (Procedures.call_within hargs h).1, R.admits_error _⟩
  | toggleDebug => exact ⟨hs.of_environments rfl, R.admits_ok.mpr trivial⟩
  | _ => exact ⟨hs.of_environments (by simp), R.admits_error _⟩

/-- By induction on the derivation: no task leaves the realm that it was taken up in. -/
theorem Task.Derives.keeps {task : Task} (h : task.Derives s r t) (hs : s.Within R)
    (htask : task.Within R) : R.Keeps s t ∧ R.Admits r := by
  induction h with
  | ends h => exact h.keeps hs htask
  | named _ h _ ih =>
      obtain ⟨⟨_, hoperands⟩, henv⟩ := within_expression.mp htask
      have hprocedure := hs.bound _ (.inl henv) _ _ h
      obtain ⟨hkeeps, hr⟩ := ih (hs.trace _).state (within_call.mpr ⟨hprocedure, hoperands, henv⟩)
      exact ⟨(hs.trace _).trans hkeeps, hr⟩
  | @keyword _ _ _ _ _ _ _ _ k _ _ _ _ ih =>
      obtain ⟨⟨_, hoperands⟩, henv⟩ := within_expression.mp htask
      obtain ⟨hkeeps, hr⟩ := ih (hs.trace _).state ((within_form k).mpr ⟨hoperands, henv⟩)
      exact ⟨(hs.trace _).trans hkeeps, hr⟩
  | computed _ _ _ _ ihhead ihcall =>
      obtain ⟨⟨hhead, hoperands⟩, henv⟩ := within_expression.mp htask
      obtain ⟨hkeeps, hprocedure⟩ := ihhead (hs.trace _).state (within_expression.mpr ⟨hhead, henv⟩)
      have hprocedure := R.admits_ok.mp hprocedure
      obtain ⟨hkeeps', hr⟩ := ihcall hkeeps.state (within_call.mpr ⟨hprocedure, hoperands, henv⟩)
      exact ⟨((hs.trace _).trans hkeeps).trans hkeeps', hr⟩
  | headFails _ _ _ ih =>
      obtain ⟨⟨hhead, _⟩, henv⟩ := within_expression.mp htask
      obtain ⟨hkeeps, hr⟩ := ih (hs.trace _).state (within_expression.mpr ⟨hhead, henv⟩)
      exact ⟨(hs.trace _).trans hkeeps, hr⟩
  | @define _ _ _ _ x _ _ _ h _ _ _ ih =>
      obtain ⟨hkeeps, hv⟩ := ih hs (htask.element (by simp [h]))
      have hbind := hkeeps.state.bind x htask.2 (R.admits_ok.mp hv)
      exact ⟨(hkeeps.trans hbind).trans hbind.state.marked, R.admits_ok.mpr trivial⟩
  | definedMeanwhile h _ _ _ ih =>
      exact ⟨(ih hs (htask.element (by simp [h]))).1, R.admits_error _⟩
  | valueFails h _ _ ih => exact ih hs (htask.element (by simp [h]))
  | consequent h _ _ _ ihtest ihbranch | alternate h _ _ _ ihtest ihbranch =>
      obtain ⟨hkeeps, _⟩ := ihtest hs (htask.element (by simp [h]))
      obtain ⟨hkeeps', hr⟩ := ihbranch hkeeps.state (htask.element (by simp [h]))
      exact ⟨hkeeps.trans hkeeps', hr⟩
  | noAlternate h _ _ ih =>
      obtain ⟨hkeeps, _⟩ := ih hs (htask.element (by simp [h]))
      exact ⟨hkeeps.trans hkeeps.state.marked, R.admits_ok.mpr trivial⟩
  | testFails h _ ih => exact ih hs (htask.element (by simp [h]))
  | call _ _ ihoperands ihapplication =>
      obtain ⟨hprocedure, hlist, henv⟩ := within_call.mp htask
      obtain ⟨hkeeps, hargs⟩ := ihoperands hs (within_operands.mpr ⟨hlist, henv⟩)
      have hargs := R.admits_ok.mp hargs
      obtain ⟨hkeeps', hr⟩ :=
        ihapplication hkeeps.state (within_application.mpr ⟨hprocedure, hargs, henv⟩)
      exact ⟨hkeeps.trans hkeeps', hr⟩
  | operandsFail _ ih =>
      obtain ⟨_, hlist, henv⟩ := within_call.mp htask
      exact ih hs (within_operands.mpr ⟨hlist, henv⟩)
  | operands _ _ ihfirst ihrest =>
      obtain ⟨⟨hfirst, hrest⟩, henv⟩ := within_operands.mp htask
      obtain ⟨hkeeps, hv⟩ := ihfirst hs (within_expression.mpr ⟨hfirst, henv⟩)
      obtain ⟨hkeeps', hvs⟩ := ihrest hkeeps.state (within_operands.mpr ⟨hrest, henv⟩)
      exact ⟨(hkeeps.trans hkeeps').trans hkeeps'.state.marked,
        R.admits_ok.mpr ⟨R.admits_ok.mp hv, R.admits_ok.mp hvs⟩⟩
  | firstFails _ ih =>
      obtain ⟨⟨hfirst, _⟩, henv⟩ := within_operands.mp htask
      exact ih hs (within_expression.mpr ⟨hfirst, henv⟩)
  | restFails _ _ ihfirst ihrest =>
      obtain ⟨⟨hfirst, hrest⟩, henv⟩ := within_operands.mp htask
      have hkeeps := (ihfirst hs (within_expression.mpr ⟨hfirst, henv⟩)).1
      obtain ⟨hkeeps', hr⟩ := ihrest hkeeps.state (within_operands.mpr ⟨hrest, henv⟩)
      exact ⟨hkeeps.trans hkeeps', hr⟩
  | @body s _ _ m env closure body args formal own h _ ih =>
      obtain ⟨⟨hclosure, hbody⟩, hargs, henv⟩ := within_application.mp htask
      have htrace := hs.trace (.applying (.lambda m closure formal body) args)
      have hcaller := hs.bound env (.inl henv)
      have hcaptured := hs.bound closure (.inr hclosure)
      have hgrown := htrace.state.grown (R.callBindings_within hcaller hcaptured hargs h)
      have hinner : (⟨s.environments.size⟩ : EnvId) ∈ R.opened := R.opened_of_le _ hs.size_le
      obtain ⟨hkeeps, hr⟩ := ih hgrown.state (within_expression.mpr ⟨hbody, hinner⟩)
      exact ⟨(htrace.trans hgrown).trans hkeeps, hr⟩
  | explicit h _ ih =>
      obtain ⟨_, hargs, _⟩ := within_application.mp htask
      obtain ⟨henvironments, hanswer⟩ := Procedures.call_within hargs h
      obtain ⟨hexpr, _, hinner⟩ := hanswer _ rfl
      have hcall := hs.of_environments henvironments
      have hquiet := hcall.state.tracing false
      obtain ⟨hkeeps, hr⟩ := ih hquiet.state (within_expression.mpr ⟨hexpr, hinner⟩)
      exact ⟨((hcall.trans hquiet).trans hkeeps).trans (hkeeps.state.tracing _), hr⟩

end Realm

/-! ### The realm of some values -/

/-- The environments that some values lead to, the closures on the way, and what is not made yet. -/
def State.realm (s : State) (roots : Set Value) : Realm where
  opened := { env | s.Reaches roots env ∨ s.environments.size ≤ env.index }
  captured := { closure | (∃ m formal body, s.Meets roots (.lambda m closure formal body)) ∨
    s.environments.size ≤ closure.index }
  firstFree := s.environments.size
  opened_of_le := fun _ hle => Or.inr hle
  captured_of_le := fun _ hle => Or.inr hle

section Roots

variable {s : State} {roots : Set Value}

theorem State.Meets.within {v : Value} (h : s.Meets roots v) : v.Within (s.realm roots) := by
  induction v with
  | pair m first rest ihFirst ihRest => exact ⟨ihFirst h.first, ihRest h.rest⟩
  | lambda m closure formal body ih => exact ⟨Or.inl ⟨m, formal, body, h⟩, ih h.body⟩
  | environment m env => exact Or.inl ⟨m, h⟩
  | _ => trivial

theorem State.within_realm (s : State) (roots : Set Value) : s.Within (s.realm roots) where
  size_le := Nat.le_refl _
  bound := by
    intro env henv x v hv
    -- Nothing is bound where there is no environment yet.
    have hplace : ¬ s.environments.size ≤ env.index := Nat.not_le.mpr (lt_of_lookup hv)
    rcases henv with (⟨m, hmet⟩ | hle) | ⟨m, formal, body, hmet⟩ | hle
    · exact (hmet.bound hv).within
    · exact absurd hle hplace
    · exact (hmet.captured hv).within
    · exact absurd hle hplace

/-- Where neither the values lead nor anything is made nothing changes. -/
theorem Realm.Keeps.bindings_eq {t : State} (h : (s.realm roots).Keeps s t) {env : EnvId}
    (hold : env.index < s.environments.size) (hreaches : ¬ s.Reaches roots env) :
    t.bindings env = s.bindings env := by
  apply h.frame
  rintro (hreached | hle)
  · exact hreaches hreached
  · exact Nat.not_lt.mpr hle hold

/-- Data lead to no environment. -/
theorem State.not_reaches_of_data (h : ∀ v ∈ roots, ∃ d, v.datum? = some d) (env : EnvId) :
    ¬ s.Reaches roots env := by
  have hdata {v : Value} (hv : s.Meets roots v) : ∃ d, v.datum? = some d := by
    induction hv with
    | root hv => exact h _ hv
    | first _ ih =>
        obtain ⟨_, hd⟩ := ih
        obtain ⟨d, _, hfirst, _⟩ := Value.datum?_pair_eq_some_iff.mp hd
        exact ⟨d, hfirst⟩
    | rest _ ih =>
        obtain ⟨_, hd⟩ := ih
        obtain ⟨_, d, _, hrest, _⟩ := Value.datum?_pair_eq_some_iff.mp hd
        exact ⟨d, hrest⟩
    | body _ ih | captured _ _ ih | bound _ _ ih =>
        obtain ⟨_, hd⟩ := ih
        cases hd
  rintro ⟨m, hmet⟩
  obtain ⟨_, hd⟩ := hdata hmet
  cases hd

end Roots

/-- However an evaluation ends, every environment that was there before and that neither its
expression nor its environment leads to is as it was.  The same holds of the application of a lambda
to its end, where the environment of the caller counts only if it is itself met as a value. -/
theorem eval_frame :
    (∀ (depth rounds : Nat) (expr : Value) (env : EnvId) (s t : State) (r : Except Error Value),
      eval depth rounds expr env s = some (r, t) →
        ∀ e : EnvId, e.index < s.environments.size → ¬ s.Reaches (evaluationRoots expr env) e →
          t.bindings e = s.bindings e) ∧
    (∀ (depth rounds : Nat) (m : Mark) (closure : EnvId) (formal : Formal) (body args : Value)
      (caller : EnvId) (s t : State) (r : Except Error Value),
      (apply (eval depth rounds) (.lambda m closure formal body) args caller >>=
          drive (eval depth rounds) rounds) s = some (r, t) →
        ∀ e : EnvId, e.index < s.environments.size →
          ¬ s.Reaches (s.applicationRoots closure body args caller) e →
            t.bindings e = s.bindings e) := by
  constructor
  · intro depth rounds expr env s t r h e hold hreaches
    have hderives := eval_sound depth rounds expr env s r t h
    have hexpr : s.Meets (evaluationRoots expr env) expr := .root (Or.inl rfl)
    have henv : s.Reaches (evaluationRoots expr env) env := ⟨⟨0⟩, .root (Or.inr ⟨⟨0⟩, rfl⟩)⟩
    have htask := Task.within_expression.mpr ⟨hexpr.within, Or.inl henv⟩
    exact (hderives.keeps (s.within_realm _) htask).1.bindings_eq hold hreaches
  · intro depth rounds m closure formal body args caller s t r h e hold hreaches
    have hderives := apply_drive_sound (eval_sound depth rounds) h
    have hs := s.within_realm (s.applicationRoots closure body args caller)
    have hwithin {v : Value} (hv : v ∈ s.applicationRoots closure body args caller) :
        v.Within (s.realm (s.applicationRoots closure body args caller)) :=
      (State.Meets.root hv).within
    have htrace := hs.trace (.applying (.lambda m closure formal body) args)
    cases hderives with
    | ends hends =>
        cases hends with
        | rejected => exact htrace.bindings_eq hold hreaches
        | notProcedure hprocedure => cases hprocedure
    | body haccept hbody =>
        have hgrown := htrace.state.grown (Realm.callBindings_within
          (fun x v hv => hwithin (Or.inr (Or.inr (Or.inr ⟨x, hv⟩))))
          (fun x v hv => hwithin (Or.inr (Or.inr (Or.inl ⟨x, hv⟩))))
          (hwithin (Or.inr (Or.inl rfl))) haccept)
        have htask := Task.within_expression.mpr
          ⟨hwithin (Or.inl rfl), Or.inr (Nat.le_refl s.environments.size)⟩
        have hkeeps := (hbody.keeps hgrown.state htask).1
        exact ((htrace.trans hgrown).trans hkeeps).bindings_eq hold hreaches

/-- `((lambda () (define y (define y x))))`, called where `x` is 5: the body fails and has bound
`y`, but for itself alone. -/
theorem eval_frame_definition_in_body :
    ∃ t, (apply (eval 3 3) (.lambda ⟨0⟩ ⟨1⟩ .nothing definitionInDefinition) (.nil ⟨0⟩) ⟨0⟩ >>=
          drive (eval 3 3) 3) (State.fiveAtX.grown .empty) =
        some (.error (.redefinition "y"), t) ∧
      t.lookup ⟨2⟩ "y" = some (.number ⟨0⟩ 5) ∧
      t.bindings ⟨0⟩ = (State.fiveAtX.grown .empty).bindings ⟨0⟩ := by
  have hdata : ∀ v ∈ (State.fiveAtX.grown .empty).applicationRoots ⟨1⟩ definitionInDefinition
      (.nil ⟨0⟩) ⟨0⟩, ∃ d, v.datum? = some d := by
    rintro v (rfl | rfl | ⟨x, hx⟩ | ⟨x, hx⟩)
    · exact ⟨_, rfl⟩
    · exact ⟨_, rfl⟩
    · cases hx
    · change [("x", Value.number ⟨0⟩ 5)].lookup x = some v at hx
      rw [List.lookup_cons] at hx
      split at hx
      · cases hx
        exact ⟨_, rfl⟩
      · cases hx
  refine ⟨_, rfl, rfl, ?_⟩
  exact eval_frame.2 3 3 ⟨0⟩ ⟨1⟩ .nothing definitionInDefinition (.nil ⟨0⟩) ⟨0⟩ _ _ _ rfl ⟨0⟩
    (by decide) (State.not_reaches_of_data hdata ⟨0⟩)

end TinyLisp
