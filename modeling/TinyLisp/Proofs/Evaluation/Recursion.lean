import TinyLisp.Proofs.Environments.Growth
import TinyLisp.Proofs.Environments.Initial
import TinyLisp.Proofs.Evaluation.Expressions
import TinyLisp.Proofs.Interpreter.Composition
import TinyLisp.Proofs.Text.Lines

/-!
Procedures that call each other.  None of them is captured by the others, so a call is found through
the environments of its callers: each is made on top of the last one, and in all of them every name
but the parameter means what it meant where the procedures were defined.  Main statements:
`Hosts.asks`, what a call leaves to be done, and `exists_hosts`, where a program leads that defines the
procedures.
-/

namespace TinyLisp

open Evaluator Run Text

variable {ι : Type}

/-! ### Environments that are left as they are -/

/-- Every environment of the first state has in the second one the bindings that it had. -/
structure State.Preserves (s t : State) : Prop where
  size_le : s.environments.size ≤ t.environments.size
  bindings_eq : ∀ env : EnvId, env.index < s.environments.size → t.bindings env = s.bindings env

namespace State.Preserves

variable {s t u : State}

theorem of_environments (h : t.environments = s.environments) : s.Preserves t where
  size_le := Nat.le_of_eq (by rw [h])
  bindings_eq env _ := by rw [bindings, bindings, h]

theorem trans (h : s.Preserves t) (h' : t.Preserves u) : s.Preserves u where
  size_le := Nat.le_trans h.size_le h'.size_le
  bindings_eq env henv :=
    (h'.bindings_eq env (Nat.lt_of_lt_of_le henv h.size_le)).trans (h.bindings_eq env henv)

theorem grown (s : State) (b : Bindings) : s.Preserves (s.grown b) where
  size_le := by
    rw [size_grown]
    exact Nat.le_succ _
  bindings_eq env henv := by
    rw [bindings_grown, if_neg]
    rintro rfl
    exact Nat.lt_irrefl _ henv

end State.Preserves

/-- The run comes to a result as described, and leaves every environment that there was as it
was. -/
def Run.Returns {α : Type} (m : Run α) (s : State) (P : α → Prop) : Prop :=
  ∃ a t, m s = some (.ok a, t) ∧ s.Preserves t ∧ P a

theorem Run.Finds.returns {α : Type} {m : Run α} {s : State} {P : α → Prop} (h : m.Finds s P) :
    m.Returns s P := by
  obtain ⟨a, t, hrun, ht, ha⟩ := h
  exact ⟨a, t, hrun, .of_environments ht, ha⟩

theorem Run.Returns.bind {α β : Type} {m : Run α} {f : α → Run β} {s : State} {P : α → Prop}
    {Q : β → Prop} (hm : m.Returns s P)
    (hf : ∀ a t, s.Preserves t → P a → (f a).Returns t Q) : (m >>= f).Returns s Q := by
  obtain ⟨a, t, hrun, ht, ha⟩ := hm
  obtain ⟨b, u, hrest, hu, hb⟩ := hf a t ht ha
  refine ⟨b, u, ?_, ht.trans hu, hb⟩
  rw [bind_apply, hrun]
  exact hrest

namespace Evaluator

variable {ev : Evaluation} {env : EnvId} {s t : State}

/-- Once no environment of this state has changed, an expression with the contents `d` comes to a
value with the contents `r`, and again no environment has changed. -/
def Answers (ev : Evaluation) (env : EnvId) (s : State) (d r : Datum) : Prop :=
  ∀ expr t, s.Preserves t → expr.datum? = some d →
    (ev expr env).Returns t (·.datum? = some r)

/-- By induction on the operands. -/
theorem returns_evlis {ds rs : List Datum} (h : List.Forall₂ (Answers ev env s) ds rs)
    {operands : Value} (hoperands : operands.datum? = some (.list ds)) (ht : s.Preserves t) :
    (evlis ev operands env).Returns t (·.datum? = some (.list rs)) := by
  induction h generalizing operands t with
  | nil =>
      have hpair := (Value.constant_of_datum? hoperands rfl).2
      exact ⟨_, _, evlis_of_isPair_eq_false hpair, .of_environments rfl, hoperands⟩
  | @cons d r ds rs hd _ ih =>
      obtain ⟨m, first, rest, rfl, hfirst, hrest⟩ := Value.datum?_eq_cons hoperands
      rw [evlis_pair]
      refine (hd first t ht hfirst).bind fun v u hu hv => ?_
      refine (ih hrest (ht.trans hu)).bind fun vs w _ hvs => ?_
      exact ⟨_, _, make_apply _ _, .of_environments rfl,
        Value.datum?_pair_eq_some_iff.mpr ⟨r, _, hv, hvs, rfl⟩⟩

/-- A step that calls a built-in procedure is done with what the procedure answers. -/
theorem returns_step {m : Mark} {p : Native} {x : String} {ds rs : List Datum} {r : Datum}
    {expr : Value} (h : s.lookup env x = some (.native m p))
    (hoperands : List.Forall₂ (Answers ev env s) ds rs) (hcall : Procedures.Answers p rs r)
    (hexpr : expr.datum? = some (.list (.symbol x :: ds))) :
    (step ev expr env).Returns s fun st => ∃ v, st = .done v ∧ v.datum? = some r := by
  obtain ⟨m', m'', operands, rfl, hdata⟩ := Value.datum?_eq_symbol_cons hexpr
  let s' := s.trace (.evaluating (.pair m' (.symbol m'' x) operands))
  have hs' : s.Preserves s' := .of_environments (State.environments_trace _ s)
  obtain ⟨args, u, hargs, hu, hcontents⟩ := returns_evlis hoperands hdata hs'
  obtain ⟨v, w, hanswer, hw, hv⟩ := hcall args (u.trace (.applying (.native m p) args)) hcontents
  have hsame : w.environments = u.environments := by simpa using hw
  refine ⟨.done v, w, ?_, (hs'.trans hu).trans (.of_environments hsame), v, rfl, hv⟩
  rw [step_named (Value.list_of_datum? hdata).1 h, bind_apply, hargs]
  simp only
  rw [apply_native, hanswer]

end Evaluator

/-- What is seen after an environment was captured and a name was bound in it. -/
theorem State.lookup_bind_grown {s : State} {env : EnvId} (h : env.index < s.environments.size)
    (x y : String) (v : Value) (other : EnvId) :
    ((s.grown (s.bindings env)).bind env x v).lookup other y =
      if env = other ∧ y = x then some v
      else if other = ⟨s.environments.size⟩ then s.lookup env y else s.lookup other y := by
  have hlt : env.index < (s.grown (s.bindings env)).environments.size := by
    rw [size_grown]
    exact Nat.lt_succ_of_lt h
  rw [lookup_bind _ _ _ _ _ _ hlt, lookup, bindings_grown, apply_ite (Bindings.find? · y)]
  rfl

/-! ### Texts with one expression -/

namespace Interpreter

/-- A datum is evaluated as an expression with its contents. -/
theorem evaluateDatum_eq (i : Interpreter) (d : Datum) (s : State) :
    ∃ expr t, i.evaluateDatum d s = i.evaluate expr i.root t ∧ expr.datum? = some d ∧
      t.environments = s.environments :=
  ⟨_, _, rfl, datum?_makeDatum d s, Situation.environments_makeDatum d s⟩

/-- The value of a text with one expression is that of any expression with its contents. -/
theorem evaluateText_of_eval {i : Interpreter} {text : String} {d : Datum}
    (hcontents : Contains text.toList [d] none) (hrounds : 2 ≤ i.rounds) {s : State}
    {P : Value → State → Prop}
    (heval : ∀ expr t, expr.datum? = some d → t.environments = s.environments →
      ∃ w u, i.evaluate expr i.root t = some (.ok w, u) ∧ P w u) :
    ∃ w u, i.evaluateText text s = some (.ok w, u) ∧ P w u := by
  obtain ⟨expr, t, hsame, hexpr, ht⟩ := i.evaluateDatum_eq d s
  obtain ⟨w, u, hrun, hw⟩ := heval expr t hexpr ht
  obtain ⟨more, hmore⟩ : ∃ more, i.rounds = more + 2 := ⟨i.rounds - 2, by omega⟩
  have hdata : i.runData none i.rounds [d] [] s = some (⟨[w], none⟩, u) := by
    rw [hmore, runData_cons_eq_some]
    exact .inr ⟨w, u, ⟨[], none⟩, hsame.trans hrun, rfl, rfl⟩
  exact ⟨w, u, evaluateText_of_runData hcontents hdata rfl, hw⟩

end Interpreter

/-! ### Families -/

/-- The parameter of the procedures. -/
def Names.parameter : String := "n"

/-- Names for procedures, each a word of its own that means nothing yet. -/
structure Names (ι : Type) where
  name : ι → String
  name_injective : Function.Injective name
  name_ne_parameter : ∀ i, name i ≠ Names.parameter
  name_ne_native : ∀ i (p : Native), p.name ≠ name i
  name_ne_keyword : ∀ i (k : Keyword), name i ≠ k.name
  isName_name : ∀ i, IsName (name i).toList
  name_ne_dot : ∀ i, name i ≠ "."

/-- Procedures of one number that may call each other. -/
structure Family (ι : Type) extends Names ι where
  body : ι → Datum

namespace Family

open Names (parameter)

variable (f : Family ι)

/-- `(define name (lambda (n) body))`. -/
def definition (i : ι) : Datum :=
  .list [.symbol Keyword.define.name, .symbol (f.name i),
    .list [.symbol Keyword.lambda.name, .list [.symbol parameter], f.body i]]

/-- `(name n)`. -/
def question (i : ι) (n : Nat) : Datum :=
  .list [.symbol (f.name i), .number n]

/-- In this environment the built-in procedures and the special forms are what they are, and some of
the procedures can be called.  What these have captured is seen here as well. -/
structure Hosts (defined : List ι) (s : State) (env : EnvId) : Prop where
  native : ∀ p : Native, ∃ m, s.lookup env p.name = some (.native m p)
  keyword : ∀ k : Keyword, s.lookup env k.name = none
  procedure : ∀ i ∈ defined, ∃ m closure body,
    s.lookup env (f.name i) = some (.lambda m closure (.single parameter) body) ∧
      body.datum? = some (f.body i) ∧ closure.index < s.environments.size ∧
      ∀ x v, x ≠ parameter → s.lookup closure x = some v → s.lookup env x = some v

/-- A body is about to answer a question about `k`, and knows whom else it can ask. -/
structure Asks (defined : List ι) (s : State) (body : Value) (env : EnvId) (i : ι) (k : Int) :
    Prop where
  hosts : f.Hosts defined s env
  number : ∃ v, s.lookup env parameter = some v ∧ v.datum? = some (.number k)
  contents : body.datum? = some (f.body i)

variable {f} {defined : List ι} {s t : State} {env : EnvId} {expr body : Value} {i : ι} {k : Int}
  {depth rounds : Nat}

theorem native_ne_parameter (p : Native) : p.name ≠ parameter := by
  cases p <;> decide

theorem keyword_ne_parameter (k : Keyword) : k.name ≠ parameter := by
  cases k <;> decide

/-- Where all names but the parameter mean the same, the same procedures can be called. -/
theorem Hosts.inherit (h : f.Hosts defined s env) {env' : EnvId} (hst : s.Preserves t)
    (hnew : ∀ x, x ≠ parameter → t.lookup env' x = s.lookup env x) : f.Hosts defined t env' where
  native p := by
    rw [hnew _ (native_ne_parameter p)]
    exact h.native p
  keyword k := by
    rw [hnew _ (keyword_ne_parameter k)]
    exact h.keyword k
  procedure i hi := by
    obtain ⟨m, closure, body, hlookup, hbody, hclosure, hcaptured⟩ := h.procedure i hi
    refine ⟨m, closure, body, ?_, hbody, Nat.lt_of_lt_of_le hclosure hst.size_le, fun x v hx hv => ?_⟩
    · rw [hnew _ (f.name_ne_parameter i)]
      exact hlookup
    · rw [State.lookup, hst.bindings_eq closure hclosure] at hv
      rw [hnew x hx]
      exact hcaptured x v hx hv

theorem Hosts.of_environments (h : f.Hosts defined s env) (ht : t.environments = s.environments) :
    f.Hosts defined t env :=
  h.inherit (.of_environments ht) fun x _ => State.lookup_of_environments ht env x

theorem Hosts.lt (h : f.Hosts defined s env) : env.index < s.environments.size := by
  obtain ⟨m, hm⟩ := h.native .eval
  exact State.lt_of_lookup hm

/-- As long as the environment is left as it is, the same procedures can be called in it. -/
theorem Hosts.of_preserves (h : f.Hosts defined s env) (hst : s.Preserves t) :
    f.Hosts defined t env :=
  h.inherit hst fun x _ => congrArg (Bindings.find? · x) (hst.bindings_eq env h.lt)

theorem Hosts.subset {defined' : List ι} (h : f.Hosts defined s env)
    (hsubset : ∀ i ∈ defined', i ∈ defined) : f.Hosts defined' s env :=
  { h with procedure := fun i hi => h.procedure i (hsubset i hi) }

theorem Asks.of_preserves (h : f.Asks defined s body env i k) (hst : s.Preserves t) :
    f.Asks defined t body env i k where
  hosts := h.hosts.of_preserves hst
  number := by
    rw [State.lookup, hst.bindings_eq env h.hosts.lt]
    exact h.number
  contents := h.contents

/-! ### Calls -/

/-- The environment of a call is that of its caller with another parameter: what was captured is
nothing that the caller does not see. -/
theorem Hosts.callBindings (h : f.Hosts defined s env) (ht : t.environments = s.environments)
    {closure : EnvId} (hcaptured : ∀ x v, x ≠ parameter → s.lookup closure x = some v →
      s.lookup env x = some v) (v : Value) :
    let t' := t.grown (callBindings (s.bindings env) (s.bindings closure) (some (parameter, v)))
    f.Hosts defined t' ⟨s.environments.size⟩ ∧
      t'.lookup ⟨s.environments.size⟩ parameter = some v := by
  intro t'
  have hown (x : String) : t'.lookup ⟨s.environments.size⟩ x =
      if x = parameter then some v else (s.lookup closure x).or (s.lookup env x) := by
    rw [State.lookup, State.bindings_grown, if_pos (by rw [ht]), TinyLisp.callBindings,
      Bindings.find?_insert, Bindings.find?_overlay]
    rfl
  refine ⟨h.inherit ((State.Preserves.of_environments ht).trans (.grown t _)) fun x hx => ?_, ?_⟩
  · rw [hown, if_neg hx]
    cases hlookup : s.lookup closure x with
    | none => rfl
    | some w => exact (hcaptured x w hx hlookup).symm
  · rw [hown, if_pos rfl]

/-- Calling one of the procedures puts its question, in an environment of its own. -/
theorem Hosts.asks (h : f.Hosts defined s env) (hi : i ∈ defined) {ev : Evaluation}
    {operand : Datum} (hoperand : Evaluates ev env s operand (.number k))
    (hexpr : expr.datum? = some (.list [.symbol (f.name i), operand])) :
    ∃ body env' t, step ev expr env s = some (.ok (.pending body env'), t) ∧
      f.Asks defined t body env' i k ∧ s.Preserves t := by
  obtain ⟨m, closure, body, hlookup, hbody, _, hcaptured⟩ := h.procedure i hi
  obtain ⟨v, t, hstep, hv, ht⟩ := step_call hlookup hoperand hexpr
  obtain ⟨hhosts, hparameter⟩ := h.callBindings ht hcaptured v
  exact ⟨body, _, _, hstep, ⟨hhosts, ⟨v, hparameter, hv⟩, hbody⟩,
    (State.Preserves.of_environments ht).trans (.grown t _)⟩

/-- What the body that was asked comes to is what the call comes to. -/
theorem Hosts.returns_call (h : f.Hosts defined s env) (hi : i ∈ defined) {operand : Datum}
    (hoperand : Evaluates (eval depth rounds) env s operand (.number k))
    (hexpr : expr.datum? = some (.list [.symbol (f.name i), operand])) {P : Value → Prop}
    (hask : ∀ body env' t, f.Asks defined t body env' i k →
      (drive (eval depth rounds) rounds (.pending body env')).Returns t P) :
    (eval (depth + 1) rounds expr env).Returns s P := by
  obtain ⟨body, env', t, hstep, hasks, ht⟩ := h.asks hi hoperand hexpr
  obtain ⟨v, u, hrun, hu, hv⟩ := hask body env' t hasks
  refine ⟨v, u, ?_, ht.trans hu, hv⟩
  rw [eval, bind_apply, hstep]
  exact hrun

/-- The number before. -/
theorem Asks.evaluates_before (h : f.Asks defined s body env i k) :
    Evaluates (eval (depth + 2) rounds) env s
      (.list [.symbol Native.difference.name, .symbol parameter, .number 1]) (.number (k - 1)) := by
  obtain ⟨m, hm⟩ := h.hosts.native .difference
  obtain ⟨v, hlookup, hv⟩ := h.number
  have hoperands : List.Forall₂ (Evaluates (eval (depth + 1) rounds) env s)
      [.symbol parameter, .number 1] [.number k, .number 1] :=
    .cons (evaluates_symbol hlookup hv) (.cons (evaluates_constant rfl) .nil)
  exact evaluates_call hm hoperands (Procedures.answers_difference k 1)

/-- A body that first asks whether the number is zero leaves one of two branches. -/
theorem Asks.finds_branch (h : f.Asks defined s body env i k) {zero other : Datum}
    (hbody : f.body i = .list [.symbol Keyword.ifForm.name,
      .list [.symbol Native.numberEq.name, .symbol parameter, .number 0], zero, other]) :
    (step (eval (depth + 2) rounds) body env).Finds s fun st => ∃ branch,
      st = .pending branch env ∧ branch.datum? = some (if k = 0 then zero else other) := by
  obtain ⟨m, hm⟩ := h.hosts.native .numberEq
  obtain ⟨v, hlookup, hv⟩ := h.number
  have hoperands : List.Forall₂ (Evaluates (eval (depth + 1) rounds) env s)
      [.symbol parameter, .number 0] [.number k, .number 0] :=
    .cons (evaluates_symbol hlookup hv) (.cons (evaluates_constant rfl) .nil)
  have htest : Evaluates (eval (depth + 2) rounds) env s _ (.boolean (k == 0)) :=
    evaluates_call hm hoperands (Procedures.answers_numberEq k 0)
  have hbranch := finds_if (h.hosts.keyword .ifForm) htest (h.contents.trans (congrArg some hbody))
  simpa only [beq_iff_eq] using hbranch

/-! ### Programs -/

/-- Defining one more of the procedures changes what its name means, and nothing else. -/
theorem Hosts.define (h : f.Hosts defined s env) (depth rounds : Nat)
    (hfree : s.lookup env (f.name i) = none) (hexpr : expr.datum? = some (f.definition i)) :
    ∃ v t, eval (depth + 2) rounds expr env s = some (.ok v, t) ∧ f.Hosts (i :: defined) t env ∧
      ∀ x, x ≠ f.name i → t.lookup env x = s.lookup env x := by
  have hformal (v : Value) (hv : v.datum? = some (.list [.symbol parameter])) :
      Formal.ofValue? v = some (.single parameter) := by
    obtain ⟨m, first, rest, rfl, hfirst, hrest⟩ := Value.datum?_eq_cons hv
    obtain ⟨_, rfl⟩ := Value.datum?_eq_symbol hfirst
    obtain ⟨_, rfl⟩ := Value.datum?_eq_nil hrest
    rfl
  obtain ⟨v, t, m, body, hrun, hbody, ht⟩ :=
    eval_define_lambda depth rounds h.keyword hfree hformal hexpr
  let procedure : Value := .lambda m ⟨s.environments.size⟩ (.single parameter) body
  have hlookup (other : EnvId) (x : String) : t.lookup other x =
      if env = other ∧ x = f.name i then some procedure
      else if other = ⟨s.environments.size⟩ then s.lookup env x else s.lookup other x := by
    rw [State.lookup_of_environments ht, State.lookup_bind_grown h.lt]
  have hne : env ≠ ⟨s.environments.size⟩ := by
    intro heq
    have hlt := h.lt
    rw [heq] at hlt
    exact Nat.lt_irrefl _ hlt
  have hkept (x : String) (hx : x ≠ f.name i) : t.lookup env x = s.lookup env x := by
    rw [hlookup, if_neg fun h => hx h.2, if_neg hne]
  have hbound (x : String) (v : Value) (hv : s.lookup env x = some v) :
      t.lookup env x = some v := by
    rw [hkept x fun heq => by rw [heq, hfree] at hv; cases hv]
    exact hv
  have hsize : t.environments.size = s.environments.size + 1 := by
    rw [ht, State.size_bind, State.size_grown]
  refine ⟨v, t, hrun, ⟨fun p => ?_, fun k => ?_, fun j hj => ?_⟩, hkept⟩
  · rw [hkept _ (f.name_ne_native i p)]
    exact h.native p
  · rw [hkept _ (f.name_ne_keyword i k).symm]
    exact h.keyword k
  · rcases List.mem_cons.mp hj with rfl | hj
    · refine ⟨m, ⟨s.environments.size⟩, body, ?_, hbody, ?_, fun x v _ hv => ?_⟩
      · rw [hlookup, if_pos ⟨rfl, rfl⟩]
      · rw [hsize]
        exact Nat.lt_succ_self _
      · rw [hlookup, if_neg fun h => hne h.1, if_pos rfl] at hv
        exact hbound x v hv
    · obtain ⟨m', closure, body', hprocedure, hbody', hclosure, hcaptured⟩ := h.procedure j hj
      refine ⟨m', closure, body', hbound _ _ hprocedure, hbody', by omega, fun x v hx hv => ?_⟩
      rw [hlookup] at hv
      split at hv
      · next heq =>
          rw [hlookup, if_pos ⟨rfl, heq.2⟩]
          exact hv
      · have hold : closure ≠ ⟨s.environments.size⟩ := by
          rintro rfl
          exact Nat.lt_irrefl _ hclosure
        rw [if_neg hold] at hv
        exact hbound x v (hcaptured x v hx hv)

/-- The procedures can be defined one after the other, in any order. -/
theorem Hosts.defines {root : EnvId} (h : f.Hosts defined s root) {order : List ι}
    (hnodup : order.Nodup) (hfree : ∀ i ∈ order, s.lookup root (f.name i) = none)
    (depth rounds more : Nat) :
    ∃ vs t, (⟨eval (depth + 2) rounds, root, rounds⟩ : Interpreter).runData none
        (more + order.length + 1) (order.map f.definition) [] s = some (⟨vs, none⟩, t) ∧
      vs.length = order.length ∧ f.Hosts (order ++ defined) t root := by
  induction order generalizing s defined with
  | nil => exact ⟨[], s, rfl, rfl, h⟩
  | cons i order ih =>
      obtain ⟨hi, hnodup⟩ := List.nodup_cons.mp hnodup
      obtain ⟨expr, s', heval, hexpr, hs'⟩ :=
        (⟨eval (depth + 2) rounds, root, rounds⟩ : Interpreter).evaluateDatum_eq (f.definition i) s
      have hlookup := State.lookup_of_environments hs' root
      have hfree_i : s'.lookup root (f.name i) = none := by
        rw [hlookup]
        exact hfree i List.mem_cons_self
      obtain ⟨v, t, hrun, ht, hkept⟩ := (h.of_environments hs').define depth rounds hfree_i hexpr
      have hrest : ∀ j ∈ order, t.lookup root (f.name j) = none := by
        intro j hj
        have hne : f.name j ≠ f.name i := fun heq => hi (f.name_injective heq ▸ hj)
        rw [hkept _ hne, hlookup]
        exact hfree j (List.mem_cons_of_mem _ hj)
      obtain ⟨vs, u, hruns, hlength, hu⟩ := ih ht hnodup hrest
      refine ⟨v :: vs, u, ?_, by rw [List.length_cons, hlength, List.length_cons], hu.subset ?_⟩
      · rw [List.map_cons, List.length_cons, ← Nat.add_assoc, Interpreter.runData_cons_eq_some]
        exact .inr ⟨v, t, ⟨vs, none⟩, heval.trans hrun, hruns, rfl⟩
      · intro j hj
        simpa [or_left_comm] using hj

/-- At the start nothing is defined, and everything can be. -/
theorem hosts_initial (f : Family ι) (s : State) :
    f.Hosts [] (State.initialEnvironment s).2 (State.initialEnvironment s).1 where
  native := State.initialEnvironment_binds s
  keyword k := State.initialEnvironment_free s fun p => p.name_ne_keyword k
  procedure _ hi := absurd hi List.not_mem_nil

/-- The text of a question contains the question. -/
theorem contains_question (f : Family ι) (i : ι) (n : Nat) :
    Contains ("(" ++ f.name i ++ " " ++ toString n ++ ")").toList [f.question i n] none := by
  let v : Value := .pair ⟨0⟩ (.symbol ⟨0⟩ (f.name i)) (.pair ⟨0⟩ (.number ⟨0⟩ n) (.nil ⟨0⟩))
  have hreadable : v.Readable :=
    ⟨f.isName_name i, by simpa [Value.symbol?] using f.name_ne_dot i, Int.natCast_nonneg n,
      by simp [Value.symbol?], trivial⟩
  have hwritten : v.writeAt .alone [] = ("(" ++ f.name i ++ " " ++ toString n ++ ")").toList := by
    have hdigits : Numeral.decimal n = (toString n).toList := by
      change Numeral.digits n = (Nat.repr n).toList
      rw [Numeral.digits_eq, Nat.repr, String.toList_ofList]
    simp [v, Value.writeAt, Position.atom, hdigits]
  rw [← hwritten]
  apply Contains.of_reads _ (.finished (.none []))
  exact Reader.reads_readDatum_written rfl hreadable (.none _) .nil

/-- A program that defines all the procedures makes the root environment of an interpreter that was
just started a host of them. -/
theorem exists_hosts (f : Family ι) {order : List ι} (hnonempty : order ≠ [])
    (hnodup : order.Nodup) {program : String}
    (hprogram : Contains program.toList (order.map f.definition) none) {rounds : Nat}
    (hrounds : order.length < rounds) {tracing : Bool} {s s₀ : State} {i : Interpreter}
    (hstart : Interpreter.start ⟨depth + 2, rounds⟩ tracing s = (i, s₀)) :
    ∃ v t, i.evaluateText program s₀ = some (.ok v, t) ∧ f.Hosts order t i.root := by
  have hmade := (Situation.interpreter_start hstart).1
  have heval : i = ⟨eval (depth + 2) rounds, i.root, rounds⟩ :=
    Situation.interpreter_start_eq hstart
  generalize i.root = root at hmade heval
  subst heval
  have hinitial := f.hosts_initial { s with tracing := tracing }
  have hfree (j : ι) :=
    State.initialEnvironment_free { s with tracing := tracing } (f.name_ne_native j)
  rw [hmade] at hinitial hfree
  change f.Hosts [] s₀ root at hinitial
  obtain ⟨vs, t, hdefines, hlength, ht⟩ := hinitial.defines hnodup (fun j _ => hfree j) depth
    rounds (rounds - order.length - 1)
  rw [show rounds - order.length - 1 + order.length + 1 = rounds by omega] at hdefines
  have hvs : vs ≠ [] := by
    rintro rfl
    exact hnonempty (List.length_eq_zero_iff.mp hlength.symm)
  rw [List.append_nil] at ht
  exact ⟨vs.getLast hvs, t,
    Interpreter.evaluateText_of_runData hprogram hdefines (List.getLast?_eq_some_getLast hvs), ht⟩

/-- Such a program can be followed by any question. -/
theorem exists_answer (f : Family ι) {order : List ι} (hnonempty : order ≠ [])
    (hnodup : order.Nodup) {program : String}
    (hprogram : Contains program.toList (order.map f.definition) none) {rounds : Nat}
    (hrounds : order.length < rounds) {tracing : Bool} {s s₀ : State} {interpreter : Interpreter}
    (hstart : Interpreter.start ⟨depth + 2, rounds⟩ tracing s = (interpreter, s₀)) (i : ι) (n : Nat)
    {P : State → Value → State → Prop}
    (hanswer : ∀ t expr, f.Hosts order t interpreter.root →
      expr.datum? = some (f.question i n) →
      ∃ w u, eval (depth + 2) rounds expr interpreter.root t = some (.ok w, u) ∧ P t w u) :
    ∃ v t t' w u, interpreter.evaluateText program s₀ = some (.ok v, t) ∧
      t'.environments = t.environments ∧
      interpreter.evaluateText ("(" ++ f.name i ++ " " ++ toString n ++ ")") t =
        some (.ok w, u) ∧ P t' w u := by
  obtain ⟨v, t, hdefined, ht⟩ := f.exists_hosts hnonempty hnodup hprogram hrounds hstart
  obtain ⟨root, rfl⟩ : ∃ root, interpreter = ⟨eval (depth + 2) rounds, root, rounds⟩ :=
    ⟨interpreter.root, Situation.interpreter_start_eq hstart⟩
  have hnonzero : 0 < order.length := List.length_pos_iff.mpr hnonempty
  obtain ⟨w, u, hquestion, t', ht', hw⟩ := Interpreter.evaluateText_of_eval
    (i := ⟨eval (depth + 2) rounds, root, rounds⟩) (f.contains_question i n)
    (show 2 ≤ rounds by omega)
    (P := fun w u => ∃ t', t'.environments = t.environments ∧ P t' w u)
    (fun expr t' hexpr ht' => by
      obtain ⟨w, u, hrun, hw⟩ := hanswer t' expr (ht.of_environments ht') hexpr
      exact ⟨w, u, hrun, t', ht', hw⟩)
  exact ⟨v, t, t', w, u, hdefined, ht', hquestion, hw⟩

end Family

end TinyLisp
