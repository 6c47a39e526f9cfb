import Mathlib.Data.Finset.Card
import Mathlib.Data.Finset.Dedup
import TinyLisp.Proofs.Environments.Callers
import TinyLisp.Proofs.Evaluation.Passage

/-!
Names are not made up.  Everything a run binds is named by a symbol or a formal that was there at its
start, for only `read` makes symbols.  Main statement: `vocabulary_is_fixed`, no environment of a run
without `read` binds a name outside a finite set, so none grows beyond the size of that set, however
long the run goes on.
-/

namespace TinyLisp

open Evaluator

/-- The names that a value can bring into an environment: the texts of its symbols and the names that
its lambdas bind. -/
def Value.names : Value → List String
  | symbol _ x => [x]
  | pair _ first rest => first.names ++ rest.names
  | lambda _ _ formal body => formal.name?.toList ++ body.names
  | _ => []

/-- The names bound, each with those in its value. -/
def Bindings.vocabulary (b : Bindings) : List String :=
  b.names.flatMap fun x => x :: (b.find? x).toList.flatMap Value.names

/-- The names that are around when an expression is evaluated. -/
def State.vocabulary (s : State) (expr : Value) : Finset String :=
  (expr.names ++ s.environments.toList.flatMap Bindings.vocabulary).toFinset

/-- Whether a task is a call of a given procedure. -/
def Task.calls (p : Native) : Task → Bool
  | .application (.native _ q) _ _ => q = p
  | _ => false

/-- Whether work starts with a call of a given procedure. -/
def Moment.calls (p : Native) (m : Moment) : Bool :=
  match m.control with
  | .task task => task.calls p
  | .answer _ => false

/-! ### Values spelled with given names -/

/-- All names in a value are among the given ones. -/
def Value.Spelled (names : Set String) (v : Value) : Prop :=
  ∀ x ∈ v.names, x ∈ names

/-- So are the names bound in a state, and those in their values. -/
def State.Spelled (names : Set String) (s : State) : Prop :=
  ∀ env x v, s.lookup env x = some v → x ∈ names ∧ v.Spelled names

def Control.Spelled (names : Set String) (control : Control) : Prop :=
  ∀ v ∈ control.values, v.Spelled names

/-- The name that a frame is to bind, if it waits for its value. -/
def Frame.targets : Frame → List String
  | .definition x _ => [x]
  | _ => []

structure Frame.Spelled (names : Set String) (f : Frame) : Prop where
  values : ∀ v ∈ f.values, v.Spelled names
  targets : ∀ x ∈ f.targets, x ∈ names

structure Moment.Spelled (names : Set String) (m : Moment) : Prop where
  state : m.state.Spelled names
  control : m.control.Spelled names
  frames : ∀ f ∈ m.frames, f.Spelled names

section Values

variable {names : Set String} {m : Mark} {v : Value} {formal : Formal} {args : Value}
  {own : Option (String × Value)}

@[simp] theorem Value.spelled_symbol {x : String} : (symbol m x).Spelled names ↔ x ∈ names := by
  simp [Spelled, Value.names]

@[simp] theorem Value.spelled_pair {first rest : Value} :
    (pair m first rest).Spelled names ↔ first.Spelled names ∧ rest.Spelled names := by
  simp [Spelled, Value.names, or_imp, forall_and]

@[simp] theorem Value.spelled_lambda {closure : EnvId} {body : Value} :
    (lambda m closure formal body).Spelled names ↔
      (∀ x, formal.name? = some x → x ∈ names) ∧ body.Spelled names := by
  simp [Spelled, Value.names, or_imp, forall_and]

theorem Value.spelled_hereditary (names : Set String) : Value.Hereditary (Value.Spelled names) := by
  refine ⟨fun v hv => ?_, fun _ _ _ => spelled_pair⟩
  cases v with
  | symbol m x => cases hv
  | pair m first rest => cases hv
  | lambda m closure formal body => cases hv
  | _ => exact List.forall_mem_nil _

/-- A formal is spelled as the parameter list that denotes it. -/
theorem Formal.mem_of_ofValue? {formals : Value} (h : Formal.ofValue? formals = some formal)
    (hformals : formals.Spelled names) {x : String} (hx : formal.name? = some x) : x ∈ names := by
  unfold ofValue? at h
  split at h
  · cases h
    cases hx
  · cases h
    cases hx
    exact Value.spelled_symbol.mp hformals
  · cases h
    cases hx
    exact Value.spelled_symbol.mp (Value.spelled_pair.mp hformals).1
  · cases h

end Values

/-! ### States -/

section States

variable {names : Set String} {s t : State}

theorem State.Spelled.of_environments (hs : s.Spelled names)
    (h : t.environments = s.environments) : t.Spelled names := by
  intro env x v hv
  rw [lookup, bindings, h] at hv
  exact hs env x v hv

theorem State.Spelled.grown (hs : s.Spelled names) {b : Bindings}
    (hb : ∀ x v, b.find? x = some v → x ∈ names ∧ v.Spelled names) :
    (s.grown b).Spelled names := by
  intro env x v hv
  rw [lookup, bindings_grown] at hv
  split at hv
  · exact hb x v hv
  · exact hs env x v hv

theorem State.Spelled.bind (hs : s.Spelled names) {env : EnvId} {x : String} {v : Value}
    (hx : x ∈ names) (hv : v.Spelled names) : (s.bind env x v).Spelled names := by
  intro other y w hw
  by_cases hin : env.index < s.environments.size
  · rw [lookup_bind s env other x y v hin] at hw
    split at hw
    · next h =>
        cases hw
        exact ⟨h.2 ▸ hx, hv⟩
    · exact hs other y w hw
  · rw [lookup, State.bind, bindings_setBindings, if_neg fun h => hin h.2] at hw
    exact hs other y w hw

/-- What a body is given to see: the formal's name comes from its lambda, all else was seen
before. -/
theorem State.Spelled.callBindings (hs : s.Spelled names) {formal : Formal} {args : Value}
    {own : Option (String × Value)} (h : formal.accept args = .ok own)
    (hformal : ∀ x, formal.name? = some x → x ∈ names) (hargs : args.Spelled names)
    (env closure : EnvId) (x : String) (v : Value)
    (hv : (callBindings (s.bindings env) (s.bindings closure) own).find? x = some v) :
    x ∈ names ∧ v.Spelled names := by
  rw [find?_callBindings, Option.or_eq_some_iff, Option.or_eq_some_iff] at hv
  rcases hv with hown | ⟨_, hcaptured | ⟨_, hcaller⟩⟩
  · have hname := Formal.isSome_lookup_own h x
    rw [hown] at hname
    refine ⟨hformal x (by simpa using hname.symm), ?_⟩
    exact (Value.spelled_hereditary names).inherited.of_accept hargs h hown
  · exact hs closure x v hcaptured
  · exact hs env x v hcaller

/-- A call of anything but `read` leaves the environments alone and makes up no names. -/
theorem Procedures.call_spelled {p : Native} (hread : p ≠ .read) {args : Value}
    (hargs : args.Spelled names) {m : Mark} {result : Except Error Answer}
    (h : Procedures.call p args (s.trace (.applying (.native m p) args)) = (result, t)) :
    t.environments = s.environments ∧ Yields result (Answer.All (Value.Spelled names)) := by
  have hcall := call_confined (Value.spelled_hereditary names) p (fun hp => absurd hp hread) hargs
    (s.trace (.applying (.native m p) args))
  rw [h] at hcall
  exact ⟨hcall.1.environments.trans (State.environments_trace _ s), hcall.2⟩

end States

/-! ### Transitions -/

section Steps

variable {names : Set String} {task inner : Task} {pushed : List Frame} {s t : State}
  {r : Except Error Value} {m m' : Moment}

theorem Control.spelled_error (names : Set String) (e : Error) :
    (Control.answer (.error e)).Spelled names :=
  List.forall_mem_nil _

theorem Control.spelled_answer {v : Value} :
    (Control.answer (.ok v)).Spelled names ↔ v.Spelled names := by
  simp [Spelled, values]

/-- A task that ends has bound nothing that is new, and answers with names that were there. -/
theorem Task.Ends.spelled (h : task.Ends s r t) (hread : task.calls .read = false)
    (hs : s.Spelled names) (htask : (Control.task task).Spelled names) :
    t.Spelled names ∧ (Control.answer r).Spelled names := by
  have hP := (Value.spelled_hereditary names).inherited
  cases h with
  | bound h => exact ⟨hs.of_environments (by simp), Control.spelled_answer.mpr (hs _ _ _ h).2⟩
  | constant =>
      have hexpr := htask _ List.mem_cons_self
      exact ⟨hs.of_environments (by simp), Control.spelled_answer.mpr hexpr⟩
  | @quote _ _ v _ h =>
      have hv : v.Spelled names := hP.of_mem_elements (htask _ List.mem_cons_self) (by simp [h])
      exact ⟨hs, Control.spelled_answer.mpr hv⟩
  | @lambda _ env operands formals body formal h hformal =>
      have hoperands : operands.Spelled names := htask _ List.mem_cons_self
      have hbody : body.Spelled names := hP.of_mem_elements hoperands (by simp [h])
      have hformals : formals.Spelled names := hP.of_mem_elements hoperands (by simp [h])
      refine ⟨(hs.grown fun x v hv => hs env x v hv).of_environments rfl, ?_⟩
      rw [Control.spelled_answer, Value.spelled_lambda]
      exact ⟨fun x hx => Formal.mem_of_ofValue? hformal hformals hx, hbody⟩
  | noOperands =>
      exact ⟨hs, Control.spelled_answer.mpr (htask _ List.mem_cons_self)⟩
  | answered h =>
      have hargs := htask _ (List.mem_cons_of_mem _ List.mem_cons_self)
      obtain ⟨hsame, hanswer⟩ := Procedures.call_spelled (by simpa [calls] using hread) hargs h
      exact ⟨hs.of_environments hsame, Control.spelled_answer.mpr (hanswer _ rfl)⟩
  | refused h =>
      have hargs := htask _ (List.mem_cons_of_mem _ List.mem_cons_self)
      have hcall := Procedures.call_spelled (by simpa [calls] using hread) hargs h
      exact ⟨hs.of_environments hcall.1, Control.spelled_error _ _⟩
  | currentEnvironment | toggleDebug =>
      exact ⟨hs.of_environments rfl, Control.spelled_answer.mpr (List.forall_mem_nil _)⟩
  | _ => exact ⟨hs.of_environments (by simp), Control.spelled_error _ _⟩

/-- A task goes on with parts of itself and with what is bound; a body gets an environment whose names
were all there. -/
theorem Task.Enters.spelled (h : task.Enters s inner pushed t) (hread : task.calls .read = false)
    (hs : s.Spelled names) (htask : (Control.task task).Spelled names) :
    t.Spelled names ∧ (Control.task inner).Spelled names ∧ ∀ f ∈ pushed, f.Spelled names := by
  have hP := (Value.spelled_hereditary names).inherited
  cases h with
  | named hlist h =>
      have hpair := Value.spelled_pair.mp (htask _ List.mem_cons_self)
      refine ⟨hs.of_environments (by simp), ?_, List.forall_mem_nil _⟩
      simpa [Control.Spelled, Control.values, values] using ⟨(hs _ _ _ h).2, hpair.2⟩
  | keyword =>
      have hpair := Value.spelled_pair.mp (htask _ List.mem_cons_self)
      refine ⟨hs.of_environments (by simp), ?_, List.forall_mem_nil _⟩
      simpa [Control.Spelled, Control.values, values] using hpair.2
  | computed =>
      have hpair := Value.spelled_pair.mp (htask _ List.mem_cons_self)
      refine ⟨hs.of_environments (by simp), ?_,
        List.forall_mem_singleton.mpr ⟨?_, List.forall_mem_nil _⟩⟩
      · simpa [Control.Spelled, Control.values, values] using hpair.1
      · simpa [Frame.values] using hpair.2
  | @define _ m _ x expr operands h =>
      have hoperands : operands.Spelled names := htask _ List.mem_cons_self
      have hexpr : expr.Spelled names := hP.of_mem_elements hoperands (by simp [h])
      have htarget : (Value.symbol m x).Spelled names :=
        hP.of_mem_elements hoperands (by simp [h])
      refine ⟨hs, ?_, List.forall_mem_singleton.mpr ⟨List.forall_mem_nil _, ?_⟩⟩
      · simpa [Control.Spelled, Control.values, values] using hexpr
      · exact List.forall_mem_singleton.mpr (Value.spelled_symbol.mp htarget)
  | @test _ _ operands test consequent alternate h =>
      have hparts : ∀ v ∈ test :: consequent :: alternate.toList, v.Spelled names := by
        intro v hv
        exact hP.of_mem_elements (htask operands List.mem_cons_self) (h ▸ hv)
      refine ⟨hs, ?_, List.forall_mem_singleton.mpr ⟨?_, List.forall_mem_nil _⟩⟩
      · simpa [Control.Spelled, Control.values, values] using hparts test List.mem_cons_self
      · exact fun v hv => hparts v (List.mem_cons_of_mem _ hv)
  | call =>
      have hprocedure := htask _ List.mem_cons_self
      have hoperands := htask _ (List.mem_cons_of_mem _ List.mem_cons_self)
      refine ⟨hs, ?_, List.forall_mem_singleton.mpr ⟨?_, List.forall_mem_nil _⟩⟩
      · simpa [Control.Spelled, Control.values, values] using hoperands
      · simpa [Frame.values] using hprocedure
  | operands =>
      have hpair := Value.spelled_pair.mp (htask _ List.mem_cons_self)
      refine ⟨hs, ?_, List.forall_mem_singleton.mpr ⟨?_, List.forall_mem_nil _⟩⟩
      · simpa [Control.Spelled, Control.values, values] using hpair.1
      · simpa [Frame.values] using hpair.2
  | @body _ m env closure body args formal own h =>
      have hlambda := Value.spelled_lambda.mp (htask _ List.mem_cons_self)
      have hargs : args.Spelled names := htask _ (List.mem_cons_of_mem _ List.mem_cons_self)
      have htrace := State.environments_trace (.applying (.lambda m closure formal body) args) s
      refine ⟨(hs.of_environments htrace).grown
        (hs.callBindings h hlambda.1 hargs env closure), ?_, List.forall_mem_nil _⟩
      simpa [Control.Spelled, Control.values, values] using hlambda.2
  | explicit h =>
      have hargs := htask _ (List.mem_cons_of_mem _ List.mem_cons_self)
      obtain ⟨hsame, hanswer⟩ := Procedures.call_spelled (by simpa [calls] using hread) hargs h
      refine ⟨hs.of_environments hsame, ?_,
        List.forall_mem_singleton.mpr ⟨List.forall_mem_nil _, List.forall_mem_nil _⟩⟩
      simpa [Control.Spelled, Control.values, values] using (hanswer _ rfl).1

/-- What becomes of an answer is spelled as the answer and as what waited for it; a definition binds
the name it waited with. -/
theorem Frame.Resumes.spelled {f : Frame} {control : Control}
    (h : f.Resumes r s control pushed t) (hs : s.Spelled names) (hf : f.Spelled names)
    (hr : (Control.answer r).Spelled names) :
    t.Spelled names ∧ control.Spelled names ∧ ∀ f ∈ pushed, f.Spelled names := by
  obtain ⟨hvalues, htargets⟩ := hf
  cases h with
  | operator =>
      refine ⟨hs, ?_, List.forall_mem_nil _⟩
      simpa [Control.Spelled, Control.values, Task.values] using
        ⟨hr _ List.mem_cons_self, hvalues _ List.mem_cons_self⟩
  | arguments =>
      refine ⟨hs, ?_, List.forall_mem_nil _⟩
      simpa [Control.Spelled, Control.values, Task.values] using
        ⟨hvalues _ List.mem_cons_self, hr _ List.mem_cons_self⟩
  | element => exact ⟨hs, hvalues, List.forall_mem_singleton.mpr ⟨hr, List.forall_mem_nil _⟩⟩
  | prepend =>
      refine ⟨hs.of_environments rfl, Control.spelled_answer.mpr ?_, List.forall_mem_nil _⟩
      exact Value.spelled_pair.mpr ⟨hvalues _ List.mem_cons_self, hr _ List.mem_cons_self⟩
  | consequent =>
      refine ⟨hs, ?_, List.forall_mem_nil _⟩
      simpa [Control.Spelled, Control.values, Task.values] using hvalues _ List.mem_cons_self
  | alternate =>
      refine ⟨hs, ?_, List.forall_mem_nil _⟩
      simpa [Control.Spelled, Control.values, Task.values] using
        hvalues _ (List.mem_cons_of_mem _ List.mem_cons_self)
  | noAlternate =>
      exact ⟨hs.of_environments rfl, Control.spelled_answer.mpr (List.forall_mem_nil _),
        List.forall_mem_nil _⟩
  | @define _ env x v _ =>
      have hbound : (s.bind env x v).Spelled names :=
        hs.bind (htargets x List.mem_cons_self) (hr _ List.mem_cons_self)
      exact ⟨hbound.of_environments rfl, Control.spelled_answer.mpr (List.forall_mem_nil _),
        List.forall_mem_nil _⟩
  | untraced => exact ⟨hs.of_environments rfl, hr, List.forall_mem_nil _⟩
  | definedMeanwhile | fails =>
      exact ⟨hs, Control.spelled_error _ _, List.forall_mem_nil _⟩

/-- One transition that does not call `read` brings in no name. -/
theorem Transition.spelled (h : Transition m m') (hread : m.calls .read = false)
    (hm : m.Spelled names) : m'.Spelled names := by
  obtain ⟨hs, hcontrol, hframes⟩ := hm
  cases h with
  | ends h =>
      obtain ⟨ht, hr⟩ := h.spelled hread hs hcontrol
      exact ⟨ht, hr, hframes⟩
  | enters h =>
      obtain ⟨ht, hinner, hpushed⟩ := h.spelled hread hs hcontrol
      refine ⟨ht, hinner, fun f hf => ?_⟩
      exact (List.mem_append.mp hf).elim (hpushed f) (hframes f)
  | resumes h =>
      obtain ⟨ht, hnext, hpushed⟩ := h.spelled hs (hframes _ List.mem_cons_self) hcontrol
      refine ⟨ht, hnext, fun f hf => ?_⟩
      exact (List.mem_append.mp hf).elim (hpushed f) fun hf => hframes f (List.mem_cons_of_mem _ hf)

/-- No run without `read` brings in a name. -/
theorem Passes.spelled {moves : List Move} (h : Passes Transition m moves m')
    (hread : ∀ move ∈ moves, move.before.calls .read = false) (hm : m.Spelled names) :
    m'.Spelled names := by
  induction h with
  | refl => exact hm
  | tail _ hmove ih =>
      have hbefore := ih fun move hin => hread move (List.mem_cons_of_mem _ hin)
      exact hmove.spelled (hread _ List.mem_cons_self) hbefore

end Steps

/-! ### The vocabulary of a run -/

theorem Bindings.mem_vocabulary_iff {b : Bindings} {x : String} :
    x ∈ b.vocabulary ↔ ∃ y v, b.find? y = some v ∧ (x = y ∨ x ∈ v.names) := by
  simp only [vocabulary, List.mem_flatMap, List.mem_cons, mem_names_iff, Option.mem_toList]
  constructor
  · rintro ⟨y, ⟨v, hv⟩, hx⟩
    refine ⟨y, v, hv, hx.imp_right fun ⟨w, hw, hin⟩ => ?_⟩
    rw [hv] at hw
    cases hw
    exact hin
  · rintro ⟨y, v, hv, hx⟩
    exact ⟨y, ⟨v, hv⟩, hx.imp_right fun hin => ⟨v, hv, hin⟩⟩

/-- A name is around if it occurs in the expression, is bound, or occurs in a value that is bound. -/
theorem State.mem_vocabulary_iff {s : State} {expr : Value} {x : String} :
    x ∈ s.vocabulary expr ↔ x ∈ expr.names ∨
      ∃ env y v, s.lookup env y = some v ∧ (x = y ∨ x ∈ v.names) := by
  rw [vocabulary, List.mem_toFinset, List.mem_append, List.mem_flatMap]
  refine or_congr_right ⟨?_, ?_⟩
  · rintro ⟨b, hb, hx⟩
    obtain ⟨n, hn, rfl⟩ := List.getElem_of_mem hb
    obtain ⟨y, v, hv, hx⟩ := Bindings.mem_vocabulary_iff.mp hx
    refine ⟨⟨n⟩, y, v, ?_, hx⟩
    rw [Array.length_toList] at hn
    simpa [lookup, bindings, hn] using hv
  · rintro ⟨env, y, v, hv, hx⟩
    have hlt := lt_of_lookup hv
    refine ⟨s.bindings env, ?_, Bindings.mem_vocabulary_iff.mpr ⟨y, v, hv, hx⟩⟩
    simp [bindings, hlt]

/-- Maps that bind only names of a finite set are at most as large as it. -/
theorem Bindings.size_le_card {b : Bindings} {names : Finset String}
    (h : ∀ x v, b.find? x = some v → x ∈ names) : b.size ≤ names.card := by
  have hsubset : b.names.toFinset ⊆ names := by
    intro x hx
    obtain ⟨v, hv⟩ := mem_names_iff.mp (List.mem_toFinset.mp hx)
    exact h x v hv
  calc
    b.size = b.names.length := (List.length_map _).symm
    _ = b.names.toFinset.card := (List.toFinset_card_of_nodup b.nodup).symm
    _ ≤ names.card := Finset.card_le_card hsubset

/-- A run begins with nothing but its vocabulary. -/
theorem Moment.begin_spelled (expr : Value) (env : EnvId) (s : State) :
    (Moment.begin expr env s).Spelled (s.vocabulary expr) where
  state := by
    intro env y v hv
    refine ⟨?_, fun x hx => ?_⟩
    · exact State.mem_vocabulary_iff.mpr (.inr ⟨env, y, v, hv, .inl rfl⟩)
    · exact State.mem_vocabulary_iff.mpr (.inr ⟨env, y, v, hv, .inr hx⟩)
  control := by
    intro v hv
    obtain rfl := List.mem_singleton.mp hv
    exact fun x hx => State.mem_vocabulary_iff.mpr (.inl hx)
  frames := List.forall_mem_nil _

/-- Wherever a run gets without a call of `read`, a name that any environment binds there was bound in
some environment at the start, or it is the text of a symbol, or the name that a lambda binds, in the
expression or in a value that some environment held at the start.  These names are a finite set, and
no environment binds more names than the set has.  The evaluations that return, with values or errors,
are the runs that come to their end. -/
theorem vocabulary_is_fixed (expr : Value) (env : EnvId) (s : State) :
    (∀ r t, (∃ depth rounds, eval depth rounds expr env s = some (r, t)) ↔
      ∃ moves, Passes Transition (.begin expr env s) moves (.ending r t)) ∧
    (∀ x, x ∈ s.vocabulary expr ↔ x ∈ expr.names ∨
      ∃ env y v, s.lookup env y = some v ∧ (x = y ∨ x ∈ v.names)) ∧
    ∀ moves m, Passes Transition (.begin expr env s) moves m →
      (∀ move ∈ moves, move.before.calls .read = false) →
      ∀ other, (∀ x v, m.state.lookup other x = some v → x ∈ s.vocabulary expr) ∧
        (m.state.bindings other).size ≤ (s.vocabulary expr).card := by
  refine ⟨fun r t => ?_, fun x => State.mem_vocabulary_iff, fun moves m h hread other => ?_⟩
  · exact ⟨fun ⟨_, _, h⟩ => eval_passes h, fun ⟨_, h⟩ => h.eval⟩
  · have hm := h.spelled hread (Moment.begin_spelled expr env s)
    have hbound x v (hv : m.state.lookup other x = some v) : x ∈ s.vocabulary expr :=
      Finset.mem_coe.mp (hm.state other x v hv).1
    exact ⟨hbound, Bindings.size_le_card hbound⟩

/-- `f` is `(lambda (x) (define y x))`, made where nothing was bound. -/
def State.withLocalDefinition : State :=
  .ofEntries [[("f", .lambda ⟨0⟩ ⟨1⟩ (.single "x")
    (.ofElements [.symbol ⟨0⟩ "define", .symbol ⟨0⟩ "y", .symbol ⟨0⟩ "x"]))], []]

/-- `(f 5)` leaves an environment with three of the four names that were around. -/
theorem vocabulary_is_fixed_local_definition :
    let expr : Value := .ofElements [.symbol ⟨0⟩ "f", .number ⟨0⟩ 5]
    ∃ moves t, Passes Transition (.begin expr ⟨0⟩ .withLocalDefinition) moves
        (.ending (.ok (.unspecified ⟨1⟩)) t) ∧
      (∀ move ∈ moves, move.before.calls .read = false) ∧
      t.lookup ⟨2⟩ "y" = some (.number ⟨0⟩ 5) ∧
      "y" ∈ State.withLocalDefinition.vocabulary expr ∧
      (t.bindings ⟨2⟩).size = 3 ∧ (t.bindings ⟨2⟩).size ≤ 4 := by
  intro expr
  have hend : Passes Transition (.begin expr ⟨0⟩ .withLocalDefinition) _
      (.ending (.ok (.unspecified ⟨1⟩)) _) :=
    Passes.refl
      |>.tail (.enters (.named rfl rfl))
      |>.tail (.enters .call)
      |>.tail (.enters .operands)
      |>.tail (.ends (.constant rfl rfl))
      |>.tail (.resumes .element)
      |>.tail (.ends (.noOperands rfl))
      |>.tail (.resumes .prepend)
      |>.tail (.resumes .arguments)
      |>.tail (.enters (.body rfl))
      |>.tail (.enters (.keyword (k := .define) rfl rfl rfl))
      |>.tail (.enters (.define rfl rfl))
      |>.tail (.ends (.bound rfl))
      |>.tail (.resumes (.define rfl))
  have hcard : (State.withLocalDefinition.vocabulary expr).card = 4 := by decide +kernel
  obtain ⟨hnames, hsize⟩ :=
    (vocabulary_is_fixed expr ⟨0⟩ .withLocalDefinition).2.2 _ _ hend (by decide) ⟨2⟩
  refine ⟨_, _, hend, by decide, rfl, hnames "y" (.number ⟨0⟩ 5) rfl, rfl, ?_⟩
  rw [hcard] at hsize
  exact hsize

end TinyLisp
