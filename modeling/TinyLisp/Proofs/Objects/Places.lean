import TinyLisp.Proofs.Environments.Capture
import TinyLisp.Proofs.Ports.LifeCycle

/-!
Objects and their places.  A lambda is made together with the environment it captures, a port object
together with the port it stands for, and no object is ever made for a place that has one.  The
invariant is a set of objects, no two with one place, that all values are made of.  Main statements:
`proceeds_drawn` and `produced_drawn`, what one step keeps and what a whole run keeps.
-/

namespace TinyLisp

open Evaluator
open Relation (ReflTransGen)

/-- A place in the state that has one object. -/
inductive Place where
  | closure (env : EnvId)
  | port (id : PortId)
  deriving DecidableEq, Repr

/-- The place that an object was made for. -/
def Value.place? : Value → Option Place
  | .lambda _ closure _ _ => some (.closure closure)
  | .port _ id => some (.port id)
  | _ => none

/-- Whether a place is there yet. -/
def State.Has (s : State) : Place → Prop
  | .closure env => env.index < s.environments.size
  | .port id => id.index < s.ports.size

/-! ### Values made of objects -/

/-- A value whose lambdas and ports are among some objects. -/
def Value.Drawn (objects : Set Value) : Value → Prop
  | .pair _ first rest => first.Drawn objects ∧ rest.Drawn objects
  | .lambda m closure formal body =>
      .lambda m closure formal body ∈ objects ∧ body.Drawn objects
  | .port m id => .port m id ∈ objects
  | _ => True

namespace Value

variable {objects objects' : Set Value} {v w : Value}

@[simp] theorem drawn_pair {m : Mark} {first rest : Value} :
    (pair m first rest).Drawn objects ↔ first.Drawn objects ∧ rest.Drawn objects := Iff.rfl

/-- A value is made of objects exactly when every part of it that has a place is one of them. -/
theorem drawn_iff :
    v.Drawn objects ↔ ∀ w, v.HasPart w → w.place?.isSome = true → w ∈ objects := by
  constructor
  · intro hv w hpart hplace
    induction hpart with
    | refl v =>
        cases v with
        | lambda m closure formal body => exact hv.1
        | port m id => exact hv
        | _ => cases hplace
    | first _ ih => exact ih hv.1 hplace
    | rest _ ih => exact ih hv.2 hplace
    | body _ ih => exact ih hv.2 hplace
  · intro h
    induction v with
    | pair m first rest ihFirst ihRest =>
        exact ⟨ihFirst fun w hw => h w (.first hw), ihRest fun w hw => h w (.rest hw)⟩
    | lambda m closure formal body ih =>
        exact ⟨h _ (.refl _) rfl, ih fun w hw => h w (.body hw)⟩
    | port m id => exact h _ (.refl _) rfl
    | _ => trivial

theorem Drawn.mono (hv : v.Drawn objects) (h : objects ⊆ objects') : v.Drawn objects' :=
  drawn_iff.mpr fun w hpart hplace => h (drawn_iff.mp hv w hpart hplace)

theorem Drawn.of_hasPart (hv : v.Drawn objects) (h : v.HasPart w) : w.Drawn objects := by
  induction h with
  | refl => exact hv
  | first _ ih => exact ih hv.1
  | rest _ ih => exact ih hv.2
  | body _ ih => exact ih hv.2

theorem isSome_place?_of_port? (h : v.port?.isSome = true) : v.place?.isSome = true := by
  cases v with
  | port m id => rfl
  | _ => cases h

/-- No port is part of a value that is made of no objects. -/
theorem Drawn.not_port (hv : v.Drawn ∅) (h : v.HasPart w) : ¬ w.port?.isSome = true := fun hport =>
  Set.notMem_empty w (drawn_iff.mp hv w h (isSome_place?_of_port? hport))

theorem drawn_inherited (objects : Set Value) : Inherited (Drawn objects) := by
  refine ⟨fun v hv hport => ?_, fun _ _ _ => drawn_pair⟩
  cases v with
  | pair m first rest => cases hv
  | lambda m closure formal body => cases hv
  | port m id => cases hport
  | _ => trivial

end Value

/-- Every object has a place, no two have the same, and all values bound are made of the objects. -/
structure State.Drawn (objects : Set Value) (s : State) : Prop where
  placed : ∀ w ∈ objects, ∃ place, w.place? = some place ∧ s.Has place
  distinct : ∀ v ∈ objects, ∀ w ∈ objects, v.place? = w.place? → v = w
  bound : ∀ env x v, s.lookup env x = some v → v.Drawn objects

section Drawn

variable {objects objects' : Set Value} {s t : State}

namespace State.Drawn

/-- Nothing changes for objects where the environments are left alone and no port is taken away. -/
theorem same (hs : s.Drawn objects) (henvironments : t.environments = s.environments)
    (hports : s.ports.size ≤ t.ports.size) : t.Drawn objects where
  placed := by
    intro w hw
    obtain ⟨place, hplace, hhas⟩ := hs.placed w hw
    refine ⟨place, hplace, ?_⟩
    cases place with
    | closure env =>
        rw [Has, henvironments]
        exact hhas
    | port id => exact Nat.lt_of_lt_of_le hhas hports
  distinct := hs.distinct
  bound := by
    intro env x v hv
    rw [lookup, bindings, henvironments] at hv
    exact hs.bound env x v hv

theorem grown (hs : s.Drawn objects) {b : Bindings}
    (hb : ∀ x v, b.find? x = some v → v.Drawn objects) : (s.grown b).Drawn objects where
  placed := by
    intro w hw
    obtain ⟨place, hplace, hhas⟩ := hs.placed w hw
    refine ⟨place, hplace, ?_⟩
    cases place with
    | closure env =>
        rw [Has, size_grown]
        exact Nat.lt_succ_of_lt hhas
    | port id => exact hhas
  distinct := hs.distinct
  bound := by
    intro env x v hv
    rw [lookup, bindings_grown] at hv
    split at hv
    · exact hb x v hv
    · exact hs.bound env x v hv

theorem bind (hs : s.Drawn objects) {v : Value} (hv : v.Drawn objects) (env : EnvId)
    (x : String) : (s.bind env x v).Drawn objects where
  placed := by
    intro w hw
    obtain ⟨place, hplace, hhas⟩ := hs.placed w hw
    refine ⟨place, hplace, ?_⟩
    cases place with
    | closure other =>
        rw [Has, size_bind]
        exact hhas
    | port id => exact hhas
  distinct := hs.distinct
  bound := by
    intro other y w hw
    by_cases henv : env.index < s.environments.size
    · rw [lookup_bind s env other x y v henv] at hw
      split at hw
      · cases hw
        exact hv
      · exact hs.bound other y w hw
    · rw [lookup, State.bind, bindings_setBindings, if_neg fun h => henv h.2] at hw
      exact hs.bound other y w hw

/-- An object may be made for a place that was not there before. -/
theorem insert (hs : s.Drawn objects) (ht : t.Drawn objects) {w : Value} {place : Place}
    (hplace : w.place? = some place) (hnew : ¬ s.Has place) (hhas : t.Has place) :
    t.Drawn (Insert.insert w objects) := by
  have hne : ∀ v ∈ objects, v.place? ≠ w.place? := by
    intro v hv heq
    obtain ⟨other, hother, hold⟩ := hs.placed v hv
    rw [heq, hplace, Option.some.injEq] at hother
    exact hnew (hother ▸ hold)
  refine ⟨fun v hv => ?_, fun v hv u hu heq => ?_, fun env x v hv => ?_⟩
  · rcases hv with rfl | hv
    · exact ⟨place, hplace, hhas⟩
    · exact ht.placed v hv
  · rcases hv with rfl | hv <;> rcases hu with rfl | hu
    · rfl
    · exact absurd heq.symm (hne u hu)
    · exact absurd heq (hne v hv)
    · exact ht.distinct v hv u hu heq
  · exact (ht.bound env x v hv).mono (Set.subset_insert w objects)

/-- A body is given to see nothing that was not there. -/
theorem callBindings (hs : s.Drawn objects) {args : Value} (hargs : args.Drawn objects)
    {formal : Formal} {own : Option (String × Value)} (h : formal.accept args = .ok own)
    (env closure : EnvId) (x : String) (v : Value)
    (hv : (TinyLisp.callBindings (s.bindings env) (s.bindings closure) own).find? x = some v) :
    v.Drawn objects := by
  rw [find?_callBindings, Option.or_eq_some_iff, Option.or_eq_some_iff] at hv
  rcases hv with hown | ⟨_, hcaptured | ⟨_, hcaller⟩⟩
  · exact (Value.drawn_inherited objects).of_accept hargs h hown
  · exact hs.bound closure x v hcaptured
  · exact hs.bound env x v hcaller

end State.Drawn

/-! ### Calls -/

namespace Procedures

variable {p : Native} {args : Value} {result : Except Error Answer}

/-- Arguments that are in order make a call that opens ports one of three acts. -/
theorem act?_of_opensPorts (hp : p.opensPorts = true) {act : PortAct} (h : act? p args = some act) :
    (∃ name, act = .openInput name) ∨ (∃ name, act = .openOutput name) ∨ act = .attach := by
  unfold act? at h
  split at h
  case h_1 =>
    cases h
    exact Or.inl ⟨_, rfl⟩
  case h_2 =>
    cases h
    exact Or.inr (Or.inl ⟨_, rfl⟩)
  case h_11 =>
    cases h
    exact Or.inr (Or.inr rfl)
  case h_12 => cases h
  all_goals cases hp

/-- A call never takes a port away. -/
theorem size_ports_le_call (p : Native) (args : Value) (s : State) :
    s.ports.size ≤ (call p args s).2.ports.size := by
  cases hact : act? p args with
  | none => rw [ports_call hact]
  | some act =>
      rw [call_of_act? hact]
      rcases hrun : act.carryOut s with ⟨r, u⟩
      rw [answering_eq_iff.mpr hrun]
      rcases Nat.eq_zero_or_pos s.ports.size with hzero | hpos
      · rw [hzero]
        exact Nat.zero_le _
      · have hfirst : (⟨0⟩ : PortId).index < s.ports.size := hpos
        have hsize := (port_carryOut hfirst act).2
        rw [hrun] at hsize
        exact hsize

/-- A call that opens a port answers with an object made for a port made with it. -/
theorem call_of_opensPorts (hp : p.opensPorts = true) {answer : Answer}
    (h : call p args s = (.ok answer, t)) :
    answer = .value (.port ⟨s.nextMark⟩ ⟨s.ports.size⟩) ∧ t.ports.size = s.ports.size + 1 := by
  have hdeals : p.dealsWithPorts = true := by
    cases p with
    | openInput | openOutput | currentOutput => rfl
    | _ => cases hp
  cases hact : act? p args with
  | none =>
      obtain ⟨cause, hrefused, _⟩ := call_refused hdeals hact
      rw [hrefused] at h
      cases h
  | some act =>
      rw [call_of_act? hact] at h
      rcases hrun : act.carryOut s with ⟨r, u⟩
      rw [answering_eq_iff.mpr hrun] at h
      obtain ⟨hr, rfl⟩ := Prod.mk.inj h
      rcases act?_of_opensPorts hp hact with ⟨name, rfl⟩ | ⟨name, rfl⟩ | rfl
      · simp only [PortAct.carryOut] at hrun
        split at hrun <;> cases hrun <;> cases hr
        exact ⟨rfl, Array.size_push _⟩
      · simp only [PortAct.carryOut] at hrun
        split at hrun <;> cases hrun <;> cases hr
        exact ⟨rfl, Array.size_push _⟩
      · cases hrun
        cases hr
        exact ⟨rfl, Array.size_push _⟩

/-- What a call answers is made of the objects there are and of the port it may have opened. -/
theorem call_drawn (hs : s.Drawn objects) (hargs : args.Drawn objects)
    (h : call p args s = (result, t)) :
    ∃ objects', objects ⊆ objects' ∧ t.Drawn objects' ∧
      Yields result (Answer.All (Value.Drawn objects')) := by
  have hstate : State.Undisturbed s t := by
    have hcall : Confined (Answer.All fun _ => True) (call p args) :=
      call_confined ⟨fun _ _ => trivial, by simp⟩ p (fun _ _ _ => trivial) trivial
    have hconfined := hcall s
    rw [h] at hconfined
    exact hconfined.1
  have hports : s.ports.size ≤ t.ports.size := by
    have hle := size_ports_le_call p args s
    rw [h] at hle
    exact hle
  have ht : t.Drawn objects := hs.same hstate.environments hports
  by_cases hp : p.opensPorts = true
  · cases result with
    | error e => exact ⟨objects, subset_rfl, ht, .throw e⟩
    | ok answer =>
        obtain ⟨rfl, hsize⟩ := call_of_opensPorts hp h
        have hnew : ¬ s.Has (.port ⟨s.ports.size⟩) := Nat.lt_irrefl _
        have hhas : t.Has (.port ⟨s.ports.size⟩) := by
          rw [State.Has, hsize]
          exact Nat.lt_succ_self _
        have hinsert : t.Drawn (insert (.port ⟨s.nextMark⟩ ⟨s.ports.size⟩) objects) :=
          hs.insert ht rfl hnew hhas
        exact ⟨_, Set.subset_insert _ _, hinsert, .pure (Set.mem_insert _ objects)⟩
  · have hconfined := call_confined_of_inherited (Value.drawn_inherited objects) p
      (fun _ _ _ => trivial) (fun h => absurd h hp) hargs s
    rw [h] at hconfined
    exact ⟨objects, subset_rfl, ht, hconfined.2⟩

end Procedures

/-! ### Transitions -/

theorem State.Drawn.marked (hs : s.Drawn objects) : s.marked.Drawn objects :=
  hs.same rfl (Nat.le_refl _)

theorem State.Drawn.trace (hs : s.Drawn objects) (e : Event) : (s.trace e).Drawn objects :=
  hs.same (by simp) (by simp)

/-- A task that ends makes at most one object, for a place made with it. -/
theorem Task.Ends.drawn {task : Task} {r : Except Error Value} (h : task.Ends s r t)
    (hs : s.Drawn objects) (htask : ∀ v ∈ task.values, v.Drawn objects) :
    ∃ objects', objects ⊆ objects' ∧ t.Drawn objects' ∧
      ∀ v ∈ (Control.answer r).values, v.Drawn objects' := by
  have hP := Value.drawn_inherited objects
  -- Only `lambda` and calls make objects.
  have same (ht : t.Drawn objects) (hanswer : ∀ v ∈ (Control.answer r).values, v.Drawn objects) :
      ∃ objects', objects ⊆ objects' ∧ t.Drawn objects' ∧
        ∀ v ∈ (Control.answer r).values, v.Drawn objects' :=
    ⟨objects, subset_rfl, ht, hanswer⟩
  cases h with
  | bound h => exact same (hs.trace _) (List.forall_mem_singleton.mpr (hs.bound _ _ _ h))
  | free _ | improper _ | unknown _ _ _ | rejected _ | notProcedure _ =>
      exact same (hs.trace _) (List.forall_mem_nil _)
  | malformed _ | badFormals _ _ | badTarget _ _ | redefinition _ _ =>
      exact same hs (List.forall_mem_nil _)
  | constant _ _ => exact same (hs.trace _) htask
  | quote h =>
      have hv := hP.of_mem_elements (htask _ List.mem_cons_self) (h ▸ List.mem_cons_self)
      exact same hs (List.forall_mem_singleton.mpr hv)
  | @lambda _ env operands formals body formal h _ =>
      have hbody : body.Drawn objects :=
        hP.of_mem_elements (htask operands List.mem_cons_self) (by simp [h])
      have ht := (hs.grown (b := s.bindings env) fun x v hv => hs.bound env x v hv).marked
      have hnew : ¬ s.Has (.closure ⟨s.environments.size⟩) := Nat.lt_irrefl _
      have hhas : (s.grown (s.bindings env)).marked.Has (.closure ⟨s.environments.size⟩) := by
        simp [State.Has]
      let made : Value := .lambda ⟨s.nextMark⟩ ⟨s.environments.size⟩ formal body
      have hinsert := hs.insert ht (show made.place? = _ from rfl) hnew hhas
      refine ⟨insert made objects, Set.subset_insert _ _, hinsert, ?_⟩
      refine List.forall_mem_singleton.mpr ⟨Set.mem_insert made objects, ?_⟩
      exact hbody.mono (Set.subset_insert _ _)
  | currentEnvironment _ | toggleDebug _ =>
      exact same (hs.same rfl (Nat.le_refl _)) (List.forall_mem_singleton.mpr trivial)
  | noOperands _ => exact same hs htask
  | answered h =>
      have hargs := htask _ (List.mem_cons_of_mem _ List.mem_cons_self)
      obtain ⟨objects', hsubset, ht, hanswer⟩ := Procedures.call_drawn (hs.trace _) hargs h
      exact ⟨objects', hsubset, ht, List.forall_mem_singleton.mpr (hanswer _ rfl)⟩
  | refused h =>
      have hargs := htask _ (List.mem_cons_of_mem _ List.mem_cons_self)
      obtain ⟨objects', hsubset, ht, _⟩ := Procedures.call_drawn (hs.trace _) hargs h
      exact ⟨objects', hsubset, ht, List.forall_mem_nil _⟩

/-- A task that goes on as another one makes no object. -/
theorem Task.Enters.drawn {task inner : Task} {pushed : List Frame}
    (h : task.Enters s inner pushed t) (hs : s.Drawn objects)
    (htask : ∀ v ∈ task.values, v.Drawn objects) :
    t.Drawn objects ∧ ∀ v ∈ inner.values ++ pushed.flatMap Frame.values, v.Drawn objects := by
  have hP := Value.drawn_inherited objects
  cases h with
  | named _ h =>
      have hpair := htask _ List.mem_cons_self
      refine ⟨hs.trace _, ?_⟩
      simpa [values] using ⟨hs.bound _ _ _ h, hpair.2⟩
  | keyword _ _ _ =>
      have hpair := htask _ List.mem_cons_self
      exact ⟨hs.trace _, by simpa [values] using hpair.2⟩
  | computed _ _ =>
      have hpair := htask _ List.mem_cons_self
      exact ⟨hs.trace _, by simpa [values, Frame.values] using hpair⟩
  | @define _ m env x expr operands h _ =>
      have hexpr : expr.Drawn objects :=
        hP.of_mem_elements (htask operands List.mem_cons_self) (by simp [h])
      exact ⟨hs, by simpa [values, Frame.values] using hexpr⟩
  | @test _ env operands test consequent alternate h =>
      refine ⟨hs, fun v hv => hP.of_mem_elements (htask operands List.mem_cons_self) ?_⟩
      rw [h]
      simpa [values, Frame.values] using hv
  | call =>
      refine ⟨hs, ?_⟩
      have hprocedure := htask _ List.mem_cons_self
      have hoperands := htask _ (List.mem_cons_of_mem _ List.mem_cons_self)
      simpa [values, Frame.values] using ⟨hoperands, hprocedure⟩
  | operands =>
      have hpair := htask _ List.mem_cons_self
      exact ⟨hs, by simpa [values, Frame.values] using hpair⟩
  | @body _ m env closure body args formal own h =>
      have hlambda : (Value.lambda m closure formal body).Drawn objects :=
        htask _ List.mem_cons_self
      have hargs := htask _ (List.mem_cons_of_mem _ List.mem_cons_self)
      refine ⟨(hs.trace _).grown fun x v hv => hs.callBindings hargs h env closure x v hv, ?_⟩
      simpa [values] using hlambda.2
  | @explicit _ _ m _ _ _ args p h =>
      have hargs := htask _ (List.mem_cons_of_mem _ List.mem_cons_self)
      -- It opens no port, so it is one of the calls that make no object.
      have hp : ¬ p.opensPorts = true := by
        rw [Procedures.eq_eval_of_call h]
        decide
      have hconfined := Procedures.call_confined_of_inherited hP p (fun _ _ _ => trivial)
        (fun h => absurd h hp) hargs (s.trace (.applying (.native m p) args))
      have hports := Procedures.size_ports_le_call p args (s.trace (.applying (.native m p) args))
      rw [h] at hconfined hports
      obtain ⟨hexpr, _⟩ := hconfined.2 _ rfl
      refine ⟨((hs.trace _).same hconfined.1.environments hports).same rfl (Nat.le_refl _), ?_⟩
      simpa [values, Frame.values] using hexpr

/-- An answer that comes back makes no object. -/
theorem Frame.Resumes.drawn {f : Frame} {r : Except Error Value} {control : Control}
    {pushed : List Frame} (h : f.Resumes r s control pushed t) (hs : s.Drawn objects)
    (hr : ∀ v ∈ (Control.answer r).values, v.Drawn objects)
    (hf : ∀ v ∈ f.values, v.Drawn objects) :
    t.Drawn objects ∧ ∀ v ∈ control.values ++ pushed.flatMap Frame.values, v.Drawn objects := by
  have both : ∀ v ∈ (Control.answer r).values ++ f.values, v.Drawn objects := fun v hv =>
    (List.mem_append.mp hv).elim (hr v) (hf v)
  cases h with
  | operator | arguments | element =>
      refine ⟨hs, fun v hv => both v ?_⟩
      simpa [Control.values, Task.values, values, or_comm] using hv
  | consequent _ | alternate _ =>
      refine ⟨hs, fun v hv => hf v ?_⟩
      simp only [Control.values, Task.values, List.flatMap_nil, List.append_nil] at hv
      simp_all [values]
  | prepend =>
      refine ⟨hs.marked, ?_⟩
      have hv := hf _ List.mem_cons_self
      have hvs := hr _ List.mem_cons_self
      simpa [Control.values] using ⟨hv, hvs⟩
  | noAlternate _ => exact ⟨hs.marked, by simp [Control.values, Value.Drawn]⟩
  | define _ =>
      have hv := hr _ List.mem_cons_self
      exact ⟨(hs.bind hv _ _).marked, by simp [Control.values, Value.Drawn]⟩
  | untraced => exact ⟨hs.same rfl (Nat.le_refl _), by simpa using hr⟩
  | definedMeanwhile _ | fails _ => exact ⟨hs, by simp [Control.values]⟩

end Drawn

/-! ### Runs -/

namespace Situation

/-- What comes next in a run of programs alone: a transition, or a new task once there is an answer
for the last one.  The surroundings may do anything to ports but take one away, and hand out no port
object that was not at hand. -/
inductive Proceeds : Situation → Situation → Prop where
  | work {held m m'} (h : Transition m m') : Proceeds ⟨held, m⟩ ⟨held, m'⟩
  | begins {held r s t task mark} (henvironments : t.environments = s.environments)
      (hports : s.ports.size ≤ t.ports.size)
      (hvalues : ∀ v ∈ task.values, v.Offered t ((Control.answer r).values ++ held))
      (hknown : ∀ v ∈ task.values, ∀ w, v.HasPart w → w.port?.isSome = true →
        Contains ⟨held, ⟨.answer r, [], s⟩⟩ w)
      (henv : (Value.environment mark task.env).Offered t ((Control.answer r).values ++ held)) :
      Proceeds ⟨held, ⟨.answer r, [], s⟩⟩
        ⟨(Control.answer r).values ++ held, ⟨.task task, [], t⟩⟩

/-- What a run of programs can come to from the start of an interpreter. -/
def Produced (σ : Situation) : Prop :=
  ∃ files tracing, ReflTransGen Proceeds (start files tracing) σ

/-- Everything at hand and everything bound is made of some objects. -/
structure Drawn (objects : Set Value) (σ : Situation) : Prop where
  state : σ.state.Drawn objects
  values : ∀ v ∈ σ.values, v.Drawn objects

variable {objects : Set Value} {σ τ : Situation}

/-- What programs alone do is among what can happen in any surroundings. -/
theorem Proceeds.next (h : Proceeds σ τ) : Next σ τ := by
  cases h with
  | work h => exact .work h
  | begins henvironments _ hvalues _ henv => exact .begins henvironments hvalues henv

theorem Produced.reachable (h : Produced σ) : Reachable σ := by
  obtain ⟨files, tracing, hproceeds⟩ := h
  exact ⟨files, tracing, ReflTransGen.mono (fun _ _ h => h.next) _ _ hproceeds⟩

theorem Drawn.contains (hσ : σ.Drawn objects) {v : Value} (h : σ.Contains v) :
    v.Drawn objects := by
  rcases h with ⟨w, hw, hpart⟩ | ⟨env, x, w, hw, hpart⟩
  · exact (hσ.values w hw).of_hasPart hpart
  · exact (hσ.state.bound env x w hw).of_hasPart hpart

/-- What is put together from data and from what is held is made of the same objects, but for ports
made up. -/
theorem offered_drawn {s : State} (hs : s.Drawn objects) {held : List Value}
    (hheld : ∀ v ∈ held, v.Drawn objects) {v : Value} (h : v.Offered s held) :
    v.Drawn (objects ∪ {w | w.port?.isSome = true}) := by
  induction h with
  | held h => exact (hheld _ h).mono Set.subset_union_left
  | @plain v h =>
      cases v with
      | port m id => exact Or.inr rfl
      | pair m first rest => cases h
      | lambda m closure formal body => cases h
      | _ => trivial
  | symbol m x => trivial
  | native m p => trivial
  | pair _ _ ihFirst ihRest => exact ⟨ihFirst, ihRest⟩
  | first _ ih => exact ih.1
  | rest _ ih => exact ih.2
  | bound _ h _ => exact (hs.bound _ _ _ h).mono Set.subset_union_left

/-- After the next step everything is made of the same objects and of at most one more, which has a
place of its own. -/
theorem proceeds_drawn (h : Proceeds σ τ) (hσ : σ.Drawn objects) :
    ∃ objects', objects ⊆ objects' ∧ τ.Drawn objects' := by
  cases h with
  | @work held m m' h =>
      obtain ⟨hs, hvalues⟩ := hσ
      simp only [Situation.values, List.forall_mem_append] at hvalues
      obtain ⟨hheld, hcontrol, hframes⟩ := hvalues
      cases h with
      | ends h =>
          obtain ⟨objects', hsubset, ht, hr⟩ := h.drawn hs hcontrol
          refine ⟨objects', hsubset, ht, ?_⟩
          simp only [Situation.values, List.forall_mem_append]
          exact ⟨fun v hv => (hheld v hv).mono hsubset, hr, fun v hv => (hframes v hv).mono hsubset⟩
      | enters h =>
          obtain ⟨ht, hnext⟩ := h.drawn hs hcontrol
          refine ⟨objects, subset_rfl, ht, ?_⟩
          simp only [Situation.values, List.flatMap_append, List.forall_mem_append] at hnext ⊢
          exact ⟨hheld, hnext.1, hnext.2, hframes⟩
      | resumes h =>
          simp only [List.flatMap_cons, List.forall_mem_append] at hframes
          obtain ⟨ht, hnext⟩ := h.drawn hs hcontrol hframes.1
          refine ⟨objects, subset_rfl, ht, ?_⟩
          simp only [Situation.values, List.flatMap_append, List.forall_mem_append] at hnext ⊢
          exact ⟨hheld, hnext.1, hnext.2, hframes.2⟩
  | @begins held r s t task mark henvironments hports hvalues hknown henv =>
      have hs : s.Drawn objects := hσ.state
      have ht : t.Drawn objects := hs.same henvironments hports
      have hall : ∀ v ∈ (Control.answer r).values ++ held, v.Drawn objects := by
        intro v hv
        refine hσ.values v ?_
        simpa [Situation.values, or_comm] using hv
      refine ⟨objects, subset_rfl, ht, ?_⟩
      simp only [Situation.values, List.forall_mem_append, List.flatMap_nil]
      refine ⟨List.forall_mem_append.mp hall, fun v hv => ?_, List.forall_mem_nil _⟩
      refine Value.drawn_iff.mpr fun w hpart hplace => ?_
      have hdrawn := offered_drawn ht hall (hvalues v hv)
      rcases Value.drawn_iff.mp hdrawn w hpart hplace with hw | hw
      · exact hw
      · have hcontained := hσ.contains (hknown v hv w hpart hw)
        exact Value.drawn_iff.mp hcontained w (.refl w) hplace

/-- At the start there is no object with a place. -/
theorem start_drawn (files : FileSystem) (tracing : Bool) : (start files tracing).Drawn ∅ := by
  obtain ⟨b, s, hstart, henvironments, _, hb⟩ := start_apply files tracing
  rw [hstart]
  refine ⟨⟨nofun, nofun, fun env x v hv => ?_⟩, ?_⟩
  · have hlt := State.lt_of_lookup hv
    have hfirst : env.index = 0 := by
      rw [henvironments] at hlt
      exact Nat.lt_one_iff.mp hlt
    rw [State.lookup, State.bindings, henvironments, hfirst] at hv
    obtain ⟨m, p, rfl, _⟩ := hb x v hv
    trivial
  · simp [Situation.values, Control.values, Value.Drawn]

/-- Whatever programs do, everything is made of objects that have places of their own. -/
theorem produced_drawn (h : Produced σ) : ∃ objects, σ.Drawn objects := by
  obtain ⟨files, tracing, hfollows⟩ := h
  induction hfollows with
  | refl => exact ⟨∅, start_drawn files tracing⟩
  | tail _ h ih =>
      obtain ⟨objects, hσ⟩ := ih
      obtain ⟨objects', _, hτ⟩ := proceeds_drawn h hσ
      exact ⟨objects', hτ⟩

end Situation

end TinyLisp
