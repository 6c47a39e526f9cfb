import Mathlib.Data.Set.Insert
import TinyLisp.Proofs.Environments.Growth
import TinyLisp.Proofs.Environments.Initial

/-!
Closures are out of reach.  The invariant is a set of places kept for closures: lambdas have their
closures there, no environment value leads there, and no code runs there, so nothing can ever be
defined there.  Main statements: `next_discreet` and `follows_discreet`, what one step keeps and what
a whole run keeps.
-/

namespace TinyLisp

open Evaluator
open Relation (ReflTransGen)

/-! ### Values that respect closures -/

/-- An environment that is no closure. -/
structure EnvId.Open (closures : Set EnvId) (size : Nat) (env : EnvId) : Prop where
  not_mem : env ∉ closures
  lt : env.index < size

/-- A value whose lambdas have their closures among the given ones and whose environments are none
of these. -/
def Value.Discreet (closures : Set EnvId) (size : Nat) : Value → Prop
  | .pair _ first rest => first.Discreet closures size ∧ rest.Discreet closures size
  | .lambda _ closure _ body => closure ∈ closures ∧ body.Discreet closures size
  | .environment _ env => env.Open closures size
  | _ => True

theorem Value.discreet_hereditary (closures : Set EnvId) (size : Nat) :
    Value.Hereditary (Value.Discreet closures size) := by
  refine ⟨?_, fun _ _ _ => Iff.rfl⟩
  intro v hv
  cases v with
  | pair m first rest => simp [Value.isPlain] at hv
  | lambda m closure formal body => simp [Value.isPlain] at hv
  | environment m env => simp [Value.isPlain] at hv
  | _ => trivial

theorem Value.Inherited.of_accept {P : Value → Prop} (hP : Value.Inherited P) {args v : Value}
    (hargs : P args) {formal : Formal} {own : Option (String × Value)}
    (h : formal.accept args = .ok own) {x : String} (hv : own.toList.lookup x = some v) : P v := by
  have only {y : String} {w : Value} (hw : P w) (hlookup : [(y, w)].lookup x = some v) : P v := by
    simp only [List.lookup_cons, List.lookup_nil] at hlookup
    split at hlookup <;> simp_all
  unfold Formal.accept at h
  split at h
  · cases h
    simp at hv
  · cases h
  · cases h
    exact only ((hP.pair_iff _ _ _).mp hargs).1 hv
  · cases h
  · cases h
    exact only hargs hv

def Task.Discreet (closures : Set EnvId) (size : Nat) (task : Task) : Prop :=
  (∀ v ∈ task.values, v.Discreet closures size) ∧ task.env.Open closures size

def Frame.Discreet (closures : Set EnvId) (size : Nat) (f : Frame) : Prop :=
  (∀ v ∈ f.values, v.Discreet closures size) ∧ ∀ env ∈ f.env?, env.Open closures size

def Control.Discreet (closures : Set EnvId) (size : Nat) : Control → Prop
  | .task t => t.Discreet closures size
  | .answer r => ∀ v, r = .ok v → v.Discreet closures size

theorem Control.discreet_error (closures : Set EnvId) (size : Nat) (e : Error) :
    (Control.answer (.error e)).Discreet closures size := by
  intro v hv
  cases hv

/-- Closures are places in the state, and all values bound in it respect them. -/
structure State.Discreet (closures : Set EnvId) (s : State) : Prop where
  lt : ∀ c ∈ closures, c.index < s.environments.size
  bound : ∀ env x v, s.lookup env x = some v → v.Discreet closures s.environments.size

/-- The second state has the closures of the first, with the same bindings, and further ones only at
new places. -/
structure State.Seals (closures : Set EnvId) (s : State) (closures' : Set EnvId) (t : State) :
    Prop where
  subset : closures ⊆ closures'
  fresh : ∀ c ∈ closures', c ∈ closures ∨ s.environments.size ≤ c.index
  size_le : s.environments.size ≤ t.environments.size
  bindings_eq : ∀ c ∈ closures, t.bindings c = s.bindings c

section Seals

variable {closures closures' closures'' : Set EnvId} {s t u : State}

theorem State.Seals.trans (h : s.Seals closures closures' t) (h' : t.Seals closures' closures'' u) :
    s.Seals closures closures'' u where
  subset := h.subset.trans h'.subset
  fresh := by
    intro c hc
    rcases h'.fresh c hc with hc | hle
    · exact h.fresh c hc
    · exact Or.inr (Nat.le_trans h.size_le hle)
  size_le := Nat.le_trans h.size_le h'.size_le
  bindings_eq := by
    intro c hc
    rw [h'.bindings_eq c (h.subset hc), h.bindings_eq c hc]

theorem State.seals_of_environments (h : t.environments = s.environments) :
    s.Seals closures closures t where
  subset := subset_rfl
  fresh := fun _ hc => Or.inl hc
  size_le := by rw [h]
  bindings_eq := fun c _ => by rw [bindings, bindings, h]

theorem EnvId.Open.mono (h : s.Seals closures closures' t) {env : EnvId}
    (henv : env.Open closures s.environments.size) :
    env.Open closures' t.environments.size where
  not_mem := by
    intro hmem
    rcases h.fresh env hmem with hold | hle
    · exact henv.not_mem hold
    · exact Nat.not_lt.mpr hle henv.lt
  lt := Nat.lt_of_lt_of_le henv.lt h.size_le

theorem Value.Discreet.mono (h : s.Seals closures closures' t) {v : Value}
    (hv : v.Discreet closures s.environments.size) : v.Discreet closures' t.environments.size := by
  induction v with
  | pair m first rest ihFirst ihRest => exact ⟨ihFirst hv.1, ihRest hv.2⟩
  | lambda m closure formal body ih => exact ⟨h.subset hv.1, ih hv.2⟩
  | environment m env => exact EnvId.Open.mono h hv
  | _ => trivial

theorem Frame.Discreet.mono (h : s.Seals closures closures' t) {f : Frame}
    (hf : f.Discreet closures s.environments.size) : f.Discreet closures' t.environments.size :=
  ⟨fun v hv => (hf.1 v hv).mono h, fun env henv => (hf.2 env henv).mono h⟩

theorem State.Discreet.of_environments (hs : s.Discreet closures)
    (h : t.environments = s.environments) : t.Discreet closures where
  lt := by
    rw [h]
    exact hs.lt
  bound := by
    intro env x v hv
    rw [lookup, bindings, h] at hv
    rw [h]
    exact hs.bound env x v hv

/-- A new environment may be a closure or not; what it binds respects closures. -/
theorem State.Discreet.grown (hs : s.Discreet closures) {b : Bindings}
    (hb : ∀ x v, b.find? x = some v → v.Discreet closures s.environments.size)
    (hsubset : closures ⊆ closures')
    (hnew : ∀ c ∈ closures', c ∈ closures ∨ c = ⟨s.environments.size⟩) :
    s.Seals closures closures' (s.grown b) ∧ (s.grown b).Discreet closures' := by
  have hseals : s.Seals closures closures' (s.grown b) := by
    refine ⟨hsubset, fun c hc => ?_, by simp, fun c hc => ?_⟩
    · rcases hnew c hc with hold | rfl
      · exact Or.inl hold
      · exact Or.inr (Nat.le_refl _)
    · rw [bindings_grown, if_neg]
      rintro rfl
      exact Nat.lt_irrefl _ (hs.lt _ hc)
  refine ⟨hseals, fun c hc => ?_, fun env x v hv => ?_⟩
  · rw [size_grown]
    rcases hnew c hc with hold | rfl
    · exact Nat.lt_succ_of_lt (hs.lt c hold)
    · exact Nat.lt_succ_self _
  · rw [lookup, bindings_grown] at hv
    split at hv
    · exact (hb x v hv).mono hseals
    · exact (hs.bound env x v hv).mono hseals

/-- Whatever is bound in an open environment, closures keep their bindings. -/
theorem State.Discreet.bind (hs : s.Discreet closures) {env : EnvId} {x : String} {v : Value}
    (henv : env.Open closures s.environments.size)
    (hv : v.Discreet closures s.environments.size) :
    s.Seals closures closures (s.bind env x v) ∧ (s.bind env x v).Discreet closures := by
  have hseals : s.Seals closures closures (s.bind env x v) := by
    refine ⟨subset_rfl, fun c hc => Or.inl hc, by simp, fun c hc => ?_⟩
    rw [State.bind, bindings_setBindings, if_neg]
    rintro ⟨rfl, _⟩
    exact henv.not_mem hc
  refine ⟨hseals, fun c hc => ?_, fun other y w hw => ?_⟩
  · rw [size_bind]
    exact hs.lt c hc
  · rw [size_bind]
    rw [lookup_bind s env other x y v henv.lt] at hw
    split at hw
    · cases hw
      exact hv
    · exact hs.bound other y w hw

/-! ### Transitions -/

/-- A call leaves the environments alone and answers with values that respect closures. -/
theorem Procedures.call_discreet {p : Native} {args : Value} {m : Mark}
    {result : Except Error Answer} (hargs : args.Discreet closures s.environments.size)
    (h : Procedures.call p args (s.trace (.applying (.native m p) args)) = (result, t)) :
    t.environments = s.environments ∧
      Yields result (Answer.All (Value.Discreet closures s.environments.size)) := by
  have hcall := call_confined (Value.discreet_hereditary closures s.environments.size) p
    (fun _ _ _ => trivial) hargs (s.trace (.applying (.native m p) args))
  rw [h] at hcall
  exact ⟨hcall.1.environments.trans (State.environments_trace _ s), hcall.2⟩

/-- A task that ends makes at most one closure. -/
theorem Task.Ends.discreet {task : Task} {r : Except Error Value} (h : task.Ends s r t)
    (hs : s.Discreet closures) (htask : task.Discreet closures s.environments.size) :
    ∃ closures', s.Seals closures closures' t ∧ t.Discreet closures' ∧
      (Control.answer r).Discreet closures' t.environments.size := by
  have hP := (Value.discreet_hereditary closures s.environments.size).inherited
  obtain ⟨hvalues, henv⟩ := htask
  -- All but `lambda` leave the environments alone.
  have same (ht : t.environments = s.environments)
      (hanswer : ∀ v, r = .ok v → v.Discreet closures s.environments.size) :
      ∃ closures', s.Seals closures closures' t ∧ t.Discreet closures' ∧
        (Control.answer r).Discreet closures' t.environments.size := by
    refine ⟨closures, State.seals_of_environments ht, hs.of_environments ht, ?_⟩
    rw [ht]
    exact hanswer
  cases h with
  | bound h =>
      refine same (by simp) fun v hv => ?_
      cases hv
      exact hs.bound _ _ _ h
  | constant =>
      refine same (by simp) fun v hv => ?_
      cases hv
      exact hvalues _ (by simp [values])
  | quote h =>
      refine same rfl fun v hv => ?_
      cases hv
      exact hP.of_mem_elements (hvalues _ List.mem_cons_self) (by simp [h])
  | @lambda _ env operands formals body formal h _ =>
      have hbody : body.Discreet closures s.environments.size :=
        hP.of_mem_elements (hvalues operands List.mem_cons_self) (by simp [h])
      obtain ⟨hseals, ht⟩ := hs.grown (b := s.bindings env) (fun x v hv => hs.bound env x v hv)
        (Set.subset_insert ⟨s.environments.size⟩ closures) fun c hc => (Set.mem_insert_iff.mp hc).symm
      refine ⟨_, hseals.trans (State.seals_of_environments rfl), ht.of_environments rfl, ?_⟩
      intro v hv
      cases hv
      exact ⟨Set.mem_insert _ _, hbody.mono hseals⟩
  | currentEnvironment =>
      refine same rfl fun v hv => ?_
      cases hv
      exact henv
  | noOperands =>
      refine same rfl fun v hv => ?_
      cases hv
      exact hvalues _ List.mem_cons_self
  | answered h =>
      have hargs := hvalues _ (List.mem_cons_of_mem _ List.mem_cons_self)
      obtain ⟨henvironments, hanswer⟩ := Procedures.call_discreet hargs h
      refine same henvironments fun v hv => ?_
      cases hv
      exact hanswer _ rfl
  | refused h =>
      have hargs := hvalues _ (List.mem_cons_of_mem _ List.mem_cons_self)
      exact same (Procedures.call_discreet hargs h).1 (Control.discreet_error _ _ _)
  | toggleDebug =>
      refine same rfl fun v hv => ?_
      cases hv
      trivial
  | _ => exact same (by simp) (Control.discreet_error _ _ _)

/-- What a body is given to see respects closures. -/
theorem State.Discreet.callBindings_discreet (hs : s.Discreet closures) {args : Value}
    (hargs : args.Discreet closures s.environments.size) {formal : Formal}
    {own : Option (String × Value)} (h : formal.accept args = .ok own) (env closure : EnvId)
    (x : String) (v : Value)
    (hv : (callBindings (s.bindings env) (s.bindings closure) own).find? x = some v) :
    v.Discreet closures s.environments.size := by
  rw [find?_callBindings, Option.or_eq_some_iff, Option.or_eq_some_iff] at hv
  rcases hv with hown | ⟨_, hcaptured | ⟨_, hcaller⟩⟩
  · exact (Value.discreet_hereditary _ _).inherited.of_accept hargs h hown
  · exact hs.bound closure x v hcaptured
  · exact hs.bound env x v hcaller

/-- Work that leaves the environments alone goes on with what respected closures before. -/
theorem State.Discreet.same (hs : s.Discreet closures) {control : Control} {pushed : List Frame}
    (ht : t.environments = s.environments)
    (hcontrol : control.Discreet closures s.environments.size)
    (hpushed : ∀ f ∈ pushed, f.Discreet closures s.environments.size) :
    s.Seals closures closures t ∧ t.Discreet closures ∧
      control.Discreet closures t.environments.size ∧
      ∀ f ∈ pushed, f.Discreet closures t.environments.size := by
  rw [ht]
  exact ⟨seals_of_environments ht, hs.of_environments ht, hcontrol, hpushed⟩

/-- Going on as another task makes no closure, and no code comes to run in one. -/
theorem Task.Enters.discreet {task inner : Task} {pushed : List Frame}
    (h : task.Enters s inner pushed t) (hs : s.Discreet closures)
    (htask : task.Discreet closures s.environments.size) :
    s.Seals closures closures t ∧ t.Discreet closures ∧
      (Control.task inner).Discreet closures t.environments.size ∧
      ∀ f ∈ pushed, f.Discreet closures t.environments.size := by
  have hP := (Value.discreet_hereditary closures s.environments.size).inherited
  obtain ⟨hvalues, henv⟩ := htask
  cases h with
  | named hlist h =>
      have hpair := hvalues _ List.mem_cons_self
      refine hs.same (by simp) ⟨?_, henv⟩ (List.forall_mem_nil _)
      simpa [values] using ⟨hs.bound _ _ _ h, hpair.2⟩
  | keyword =>
      have hpair := hvalues _ List.mem_cons_self
      refine hs.same (by simp) ⟨?_, henv⟩ (List.forall_mem_nil _)
      simpa [values] using hpair.2
  | computed =>
      have hpair := hvalues _ List.mem_cons_self
      refine hs.same (by simp) ⟨?_, henv⟩ ?_
      · simpa [values] using hpair.1
      · simpa [Frame.Discreet, Frame.values, Frame.env?] using ⟨hpair.2, henv⟩
  | define h =>
      have hlist := hvalues _ List.mem_cons_self
      refine hs.same rfl ⟨?_, henv⟩ ?_
      · simpa [values] using hP.of_mem_elements hlist (by simp [h])
      · simpa [Frame.Discreet, Frame.values, Frame.env?, env] using henv
  | @test _ _ operands _ consequent alternate h =>
      have hlist : operands.Discreet closures s.environments.size :=
        hvalues _ List.mem_cons_self
      refine hs.same rfl ⟨?_, henv⟩ ?_
      · simpa [values] using hP.of_mem_elements hlist (by simp [h])
      · have hbranches : ∀ v ∈ consequent :: alternate.toList,
            v.Discreet closures s.environments.size := fun v hv =>
          hP.of_mem_elements hlist (by rw [h]; exact List.mem_cons_of_mem _ hv)
        simpa [Frame.Discreet, Frame.values, Frame.env?] using ⟨by simpa using hbranches, henv⟩
  | call =>
      refine hs.same rfl ⟨?_, henv⟩ ?_
      · simpa [values] using hvalues _ (List.mem_cons_of_mem _ List.mem_cons_self)
      · have hprocedure := hvalues _ List.mem_cons_self
        simpa [Frame.Discreet, Frame.values, Frame.env?] using ⟨hprocedure, henv⟩
  | operands =>
      have hpair := hvalues _ List.mem_cons_self
      refine hs.same rfl ⟨?_, henv⟩ ?_
      · simpa [values] using hpair.1
      · simpa [Frame.Discreet, Frame.values, Frame.env?] using ⟨hpair.2, henv⟩
  | @body _ m env closure body args formal own h =>
      have hlambda : (Value.lambda m closure formal body).Discreet closures s.environments.size :=
        hvalues _ List.mem_cons_self
      have hargs : args.Discreet closures s.environments.size :=
        hvalues _ (List.mem_cons_of_mem _ List.mem_cons_self)
      have htrace := State.environments_trace (.applying (.lambda m closure formal body) args) s
      have hbindings := hs.callBindings_discreet hargs h env closure
      rw [← htrace] at hbindings
      obtain ⟨hseals, ht⟩ := (hs.of_environments htrace).grown hbindings subset_rfl
        fun _ hc => Or.inl hc
      have hseals := (State.seals_of_environments htrace).trans hseals
      refine ⟨hseals, ht, ⟨?_, ?_, ?_⟩, List.forall_mem_nil _⟩
      · simpa [values] using hlambda.2.mono hseals
      · exact fun hmem => Nat.lt_irrefl _ (hs.lt _ hmem)
      · simp [Task.env]
  | explicit h =>
      have hargs := hvalues _ (List.mem_cons_of_mem _ List.mem_cons_self)
      obtain ⟨henvironments, hanswer⟩ := Procedures.call_discreet hargs h
      obtain ⟨hexpr, m, hinner⟩ := hanswer _ rfl
      refine hs.same henvironments ⟨?_, hinner⟩ ?_
      · simpa [values] using hexpr
      · simp [Frame.Discreet, Frame.values, Frame.env?]

/-- An answer that comes back makes no closure and defines nothing in one. -/
theorem Frame.Resumes.discreet {f : Frame} {r : Except Error Value} {control : Control}
    {pushed : List Frame} (h : f.Resumes r s control pushed t) (hs : s.Discreet closures)
    (hf : f.Discreet closures s.environments.size)
    (hr : (Control.answer r).Discreet closures s.environments.size) :
    s.Seals closures closures t ∧ t.Discreet closures ∧
      control.Discreet closures t.environments.size ∧
      ∀ f ∈ pushed, f.Discreet closures t.environments.size := by
  obtain ⟨hvalues, henv⟩ := hf
  cases h with
  | operator =>
      refine hs.same rfl ⟨?_, henv _ rfl⟩ (List.forall_mem_nil _)
      simpa [Task.values] using ⟨hr _ rfl, hvalues _ List.mem_cons_self⟩
  | arguments =>
      refine hs.same rfl ⟨?_, henv _ rfl⟩ (List.forall_mem_nil _)
      simpa [Task.values] using ⟨hvalues _ List.mem_cons_self, hr _ rfl⟩
  | element =>
      refine hs.same rfl ⟨?_, henv _ rfl⟩ ?_
      · simpa [Task.values] using hvalues _ List.mem_cons_self
      · simpa [Frame.Discreet, values, env?] using hr _ rfl
  | prepend =>
      refine hs.same rfl (fun v hv => ?_) (List.forall_mem_nil _)
      cases hv
      exact ⟨hvalues _ List.mem_cons_self, hr _ rfl⟩
  | consequent =>
      refine hs.same rfl ⟨?_, henv _ rfl⟩ (List.forall_mem_nil _)
      simpa [Task.values] using hvalues _ List.mem_cons_self
  | alternate =>
      refine hs.same rfl ⟨?_, henv _ rfl⟩ (List.forall_mem_nil _)
      simpa [Task.values] using hvalues _ (List.mem_cons_of_mem _ List.mem_cons_self)
  | noAlternate =>
      refine hs.same rfl (fun v hv => ?_) (List.forall_mem_nil _)
      cases hv
      trivial
  | @define _ env x v _ =>
      obtain ⟨hseals, ht⟩ := hs.bind (x := x) (henv env rfl) (hr v rfl)
      refine ⟨hseals.trans (State.seals_of_environments rfl), ht.of_environments rfl, ?_,
        List.forall_mem_nil _⟩
      intro w hw
      cases hw
      trivial
  | untraced => exact hs.same rfl hr (List.forall_mem_nil _)
  | definedMeanwhile => exact hs.same rfl (Control.discreet_error _ _ _) (List.forall_mem_nil _)
  | fails => exact hs.same rfl (Control.discreet_error _ _ _) (List.forall_mem_nil _)

end Seals

/-! ### Situations -/

/-- Everything at hand respects closures. -/
structure Situation.Discreet (closures : Set EnvId) (σ : Situation) : Prop where
  state : σ.state.Discreet closures
  control : σ.moment.control.Discreet closures σ.state.environments.size
  frames : ∀ f ∈ σ.moment.frames, f.Discreet closures σ.state.environments.size
  held : ∀ v ∈ σ.held, v.Discreet closures σ.state.environments.size

namespace Situation

variable {closures : Set EnvId} {σ τ : Situation}

theorem control_values_discreet {control : Control} {size : Nat}
    (h : control.Discreet closures size) : ∀ v ∈ control.values, v.Discreet closures size := by
  intro v hv
  cases control with
  | task task => exact h.1 v hv
  | answer r =>
      cases r with
      | error e => cases hv
      | ok w =>
          obtain rfl := List.mem_singleton.mp hv
          exact h _ rfl

/-- Nobody can put anything together that does not respect closures. -/
theorem offered_discreet {s : State} (hs : s.Discreet closures) {held : List Value}
    (hheld : ∀ v ∈ held, v.Discreet closures s.environments.size) {v : Value}
    (h : v.Offered s held) : v.Discreet closures s.environments.size := by
  induction h with
  | held h => exact hheld _ h
  | plain h => exact (Value.discreet_hereditary _ _).plain _ h
  | symbol m x => trivial
  | native m p => trivial
  | pair _ _ ihFirst ihRest => exact ⟨ihFirst, ihRest⟩
  | first _ ih => exact ih.1
  | rest _ ih => exact ih.2
  | bound _ h _ => exact hs.bound _ _ _ h

/-- Everything respects closures after the next step too, which makes at most one more. -/
theorem next_discreet (h : Next σ τ) (hσ : σ.Discreet closures) :
    ∃ closures', σ.state.Seals closures closures' τ.state ∧ τ.Discreet closures' := by
  obtain ⟨hs, hcontrol, hframes, hheld⟩ := hσ
  cases h with
  | work h =>
      cases h with
      | ends h =>
          obtain ⟨closures', hseals, ht, hr⟩ := h.discreet hs hcontrol
          exact ⟨closures', hseals, ht, hr, fun f hf => (hframes f hf).mono hseals,
            fun v hv => (hheld v hv).mono hseals⟩
      | enters h =>
          obtain ⟨hseals, ht, hinner, hpushed⟩ := h.discreet hs hcontrol
          refine ⟨closures, hseals, ht, hinner, fun f hf => ?_, fun v hv => (hheld v hv).mono hseals⟩
          rcases List.mem_append.mp hf with hf | hf
          · exact hpushed f hf
          · exact (hframes f hf).mono hseals
      | resumes h =>
          obtain ⟨hseals, ht, hnext, hpushed⟩ :=
            h.discreet hs (hframes _ List.mem_cons_self) hcontrol
          refine ⟨closures, hseals, ht, hnext, fun f hf => ?_, fun v hv => (hheld v hv).mono hseals⟩
          rcases List.mem_append.mp hf with hf | hf
          · exact hpushed f hf
          · exact (hframes f (List.mem_cons_of_mem _ hf)).mono hseals
  | @begins held r s t task mark henvironments hvalues henv =>
      have ht := hs.of_environments henvironments
      have hseals : s.Seals closures closures t := State.seals_of_environments henvironments
      have hall : ∀ v ∈ (Control.answer r).values ++ held,
          v.Discreet closures t.environments.size := by
        intro v hv
        rcases List.mem_append.mp hv with hv | hv
        · exact (control_values_discreet hcontrol v hv).mono hseals
        · exact (hheld v hv).mono hseals
      refine ⟨closures, hseals, ht, ⟨fun v hv => ?_, ?_⟩, List.forall_mem_nil _, hall⟩
      · exact offered_discreet ht hall (hvalues v hv)
      · exact offered_discreet ht hall henv

/-- At the start there is no closure yet. -/
theorem start_discreet (files : FileSystem) (tracing : Bool) :
    (start files tracing).Discreet ∅ := by
  obtain ⟨b, s, hstart, henvironments, _, hb⟩ := start_apply files tracing
  have hsize : s.environments.size = 1 := by
    rw [henvironments]
    rfl
  have hs : s.Discreet ∅ := by
    refine ⟨fun c hc => absurd hc (Set.notMem_empty c), fun env x v hv => ?_⟩
    have hfirst : env.index = 0 := by
      have hlt := State.lt_of_lookup hv
      omega
    have hfind : b.find? x = some v := by
      rw [State.lookup, State.bindings, henvironments, hfirst] at hv
      exact hv
    obtain ⟨m, p, rfl, _⟩ := hb x v hfind
    trivial
  rw [hstart]
  refine ⟨hs, fun v hv => ?_, List.forall_mem_nil _, List.forall_mem_nil _⟩
  cases hv
  exact ⟨Set.notMem_empty _, Nat.lt_of_lt_of_eq Nat.zero_lt_one hsize.symm⟩

/-- Whatever happens, closures keep their bindings and everything goes on respecting them. -/
theorem follows_discreet (h : ReflTransGen Next σ τ) (hσ : σ.Discreet closures) :
    ∃ closures', σ.state.Seals closures closures' τ.state ∧ τ.Discreet closures' := by
  induction h with
  | refl => exact ⟨closures, State.seals_of_environments rfl, hσ⟩
  | tail _ h ih =>
      obtain ⟨closures', hseals, hmiddle⟩ := ih
      obtain ⟨closures'', hseals', hlast⟩ := next_discreet h hmiddle
      exact ⟨closures'', hseals.trans hseals', hlast⟩

theorem reachable_discreet (h : Reachable σ) : ∃ closures, σ.Discreet closures := by
  obtain ⟨files, tracing, hfollows⟩ := h
  obtain ⟨closures, _, hσ⟩ := follows_discreet hfollows (start_discreet files tracing)
  exact ⟨closures, hσ⟩

end Situation

end TinyLisp
