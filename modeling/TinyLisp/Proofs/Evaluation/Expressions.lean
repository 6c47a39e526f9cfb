import Mathlib.Data.List.Forall2
import TinyLisp.Proofs.Evaluation.Equations
import TinyLisp.Proofs.Text.Readable

/-!
Expressions known by their contents.  Which objects a text is read into does not matter to its
value, so rules of evaluation can be stated about data: an expression with these contents comes to a
value with those, and makes no environment on the way.
-/

namespace TinyLisp

open Evaluator Run

/-- A proper list. -/
def Datum.list (items : List Datum) : Datum :=
  .listWithTail items .nil

/-- Whatever is neither a symbol nor a pair. -/
def Datum.isConstant : Datum → Bool
  | .symbol _ => false
  | .pair _ _ => false
  | _ => true

/-! ### Values with given contents -/

namespace Value

variable {v : Value} {d : Datum} {ds : List Datum}

theorem datum?_eq_cons (h : v.datum? = some (.list (d :: ds))) :
    ∃ m first rest, v = .pair m first rest ∧ first.datum? = some d ∧
      rest.datum? = some (.list ds) := by
  cases v with
  | pair m first rest =>
      obtain ⟨_, _, hfirst, hrest, heq⟩ := datum?_pair_eq_some_iff.mp h
      obtain ⟨rfl, rfl⟩ := Datum.pair.inj heq
      exact ⟨m, first, rest, rfl, hfirst, hrest⟩
  | _ => cases h

theorem datum?_eq_symbol {x : String} (h : v.datum? = some (.symbol x)) :
    ∃ m, v = .symbol m x := by
  cases v with
  | symbol m y =>
      cases h
      exact ⟨m, rfl⟩
  | pair m first rest => simp [datum?_pair_eq_some_iff] at h
  | _ => cases h

theorem datum?_eq_number {n : Int} (h : v.datum? = some (.number n)) : ∃ m, v = .number m n := by
  cases v with
  | number m k =>
      cases h
      exact ⟨m, rfl⟩
  | pair m first rest => simp [datum?_pair_eq_some_iff] at h
  | _ => cases h

theorem datum?_eq_boolean {b : Bool} (h : v.datum? = some (.boolean b)) :
    ∃ m, v = .boolean m b := by
  cases v with
  | boolean m c =>
      cases h
      exact ⟨m, rfl⟩
  | pair m first rest => simp [datum?_pair_eq_some_iff] at h
  | _ => cases h

theorem datum?_eq_nil (h : v.datum? = some (.list [])) : ∃ m, v = .nil m := by
  cases v with
  | nil m => exact ⟨m, rfl⟩
  | pair m first rest => simp [datum?_pair_eq_some_iff, Datum.list, Datum.listWithTail] at h
  | _ => cases h

theorem constant_of_datum? (h : v.datum? = some d) (hd : d.isConstant = true) :
    v.symbol? = none ∧ v.isPair = false := by
  cases v with
  | pair m first rest =>
      obtain ⟨_, _, _, _, rfl⟩ := datum?_pair_eq_some_iff.mp h
      cases hd
  | symbol m x =>
      cases h
      cases hd
  | _ => exact ⟨rfl, rfl⟩

/-- The contents of a list are those of its elements, one after the other. -/
theorem list_of_datum? (h : v.datum? = some (.list ds)) :
    v.isList = true ∧ v.elements.map datum? = ds.map some := by
  induction ds generalizing v with
  | nil =>
      obtain ⟨m, rfl⟩ := datum?_eq_nil h
      exact ⟨rfl, rfl⟩
  | cons d ds ih =>
      obtain ⟨m, first, rest, rfl, hfirst, hrest⟩ := datum?_eq_cons h
      obtain ⟨hlist, helements⟩ := ih hrest
      exact ⟨hlist, by rw [elements_pair, List.map_cons, hfirst, helements, List.map_cons]⟩

/-- An expression that starts with a name. -/
theorem datum?_eq_symbol_cons {x : String} (h : v.datum? = some (.list (.symbol x :: ds))) :
    ∃ m m' operands, v = .pair m (.symbol m' x) operands ∧ operands.datum? = some (.list ds) := by
  obtain ⟨m, head, operands, rfl, hhead, hoperands⟩ := datum?_eq_cons h
  obtain ⟨m', rfl⟩ := datum?_eq_symbol hhead
  exact ⟨m, m', operands, rfl, hoperands⟩

/-- An operand list with two operands. -/
theorem elements_of_datum?_two {d₁ d₂ : Datum} (h : v.datum? = some (.list [d₁, d₂])) :
    ∃ v₁ v₂, v.elements = [v₁, v₂] ∧ v₁.datum? = some d₁ ∧ v₂.datum? = some d₂ := by
  obtain ⟨_, v₁, rest, rfl, h₁, hrest⟩ := datum?_eq_cons h
  obtain ⟨_, v₂, rest', rfl, h₂, hnil⟩ := datum?_eq_cons hrest
  obtain ⟨_, rfl⟩ := datum?_eq_nil hnil
  exact ⟨v₁, v₂, rfl, h₁, h₂⟩

/-- An operand list with three operands. -/
theorem elements_of_datum?_three {d₁ d₂ d₃ : Datum} (h : v.datum? = some (.list [d₁, d₂, d₃])) :
    ∃ v₁ v₂ v₃, v.elements = [v₁, v₂, v₃] ∧ v₁.datum? = some d₁ ∧ v₂.datum? = some d₂ ∧
      v₃.datum? = some d₃ := by
  obtain ⟨_, v₁, rest, rfl, h₁, hrest⟩ := datum?_eq_cons h
  obtain ⟨v₂, v₃, helements, h₂, h₃⟩ := elements_of_datum?_two hrest
  exact ⟨v₁, v₂, v₃, by rw [elements_pair, helements], h₁, h₂, h₃⟩

theorem toList?_of_datum? (h : v.datum? = some (.list ds)) :
    ∃ vs, v.toList? = some vs ∧ vs.map datum? = ds.map some :=
  ⟨v.elements, toList?_eq_some_iff.mpr ⟨(list_of_datum? h).1, rfl⟩, (list_of_datum? h).2⟩

end Value

/-! ### Runs that leave the environments alone -/

/-- The run comes to a result as described, and makes no environment. -/
def Run.Finds {α : Type} (m : Run α) (s : State) (P : α → Prop) : Prop :=
  ∃ a t, m s = some (.ok a, t) ∧ t.environments = s.environments ∧ P a

theorem Run.Finds.bind {α β : Type} {m : Run α} {f : α → Run β} {s : State} {P : α → Prop}
    {Q : β → Prop} (hm : m.Finds s P)
    (hf : ∀ a t, t.environments = s.environments → P a → (f a).Finds t Q) :
    (m >>= f).Finds s Q := by
  obtain ⟨a, t, hrun, ht, ha⟩ := hm
  obtain ⟨b, u, hrest, hu, hb⟩ := hf a t ht ha
  refine ⟨b, u, ?_, hu.trans ht, hb⟩
  rw [bind_apply, hrun]
  exact hrest

/-- A run that goes on as another one does finds what that one finds. -/
theorem Run.Finds.of_eq {α : Type} {m n : Run α} {s t : State} {P : α → Prop} (h : n.Finds t P)
    (ht : t.environments = s.environments) (heq : m s = n t) : m.Finds s P := by
  obtain ⟨a, u, hrun, hu, ha⟩ := h
  exact ⟨a, u, heq.trans hrun, hu.trans ht, ha⟩

theorem State.lookup_of_environments {s t : State} (h : t.environments = s.environments)
    (env : EnvId) (x : String) : t.lookup env x = s.lookup env x := by
  rw [lookup, lookup, bindings, bindings, h]

/-- Whatever state with these environments it is taken up in, an expression with the contents `d`
comes to a value with the contents `r`. -/
def Evaluator.Evaluates (ev : Evaluation) (env : EnvId) (s : State) (d r : Datum) : Prop :=
  ∀ expr t, t.environments = s.environments → expr.datum? = some d →
    (ev expr env).Finds t (·.datum? = some r)

/-- Called on a list with the contents `ds`, the procedure answers with a value with the contents
`r`. -/
def Procedures.Answers (p : Native) (ds : List Datum) (r : Datum) : Prop :=
  ∀ args s, args.datum? = some (.list ds) →
    ∃ v t, Procedures.call p args s = (.ok (.value v), t) ∧ t.environments = s.environments ∧
      v.datum? = some r

namespace Procedures

variable {ns : List Int} {args : Value}

/-- Numbers are taken as they are. -/
theorem numbers_of_datum? (p : Native) (h : args.datum? = some (.list (ns.map .number))) :
    numbers p args = .ok ns := by
  obtain ⟨vs, hlist, hcontents⟩ := Value.toList?_of_datum? h
  have hmap : vs.mapM (numberArgument p) = .ok ns := by
    clear h hlist
    induction vs generalizing ns with
    | nil =>
        cases ns with
        | nil => rfl
        | cons n ns => cases hcontents
    | cons v vs ih =>
        cases ns with
        | nil => cases hcontents
        | cons n ns =>
            obtain ⟨hv, hvs⟩ := List.cons.inj hcontents
            obtain ⟨m, rfl⟩ := Value.datum?_eq_number hv
            rw [List.mapM_cons, ih hvs]
            rfl
  rw [numbers, arguments_eq_ok_iff.mpr hlist]
  exact hmap

theorem answers_numberEq (a b : Int) :
    Answers .numberEq [.number a, .number b] (.boolean (a == b)) := by
  intro args s h
  have hnumbers : numbers .numberEq args = .ok [a, b] := numbers_of_datum? .numberEq h
  refine ⟨.boolean ⟨s.nextMark⟩ (a == b), s.marked, ?_, rfl, rfl⟩
  have hresult : comparison .numberEq (fun n m => n == m) args = .ok (a == b) := by
    rw [comparison, hnumbers]
    change Except.ok ((a == b) && true) = _
    rw [Bool.and_true]
  rw [call, hresult]
  rfl

theorem answers_difference (a b : Int) :
    Answers .difference [.number a, .number b] (.number (a - b)) := by
  intro args s h
  have hnumbers : numbers .difference args = .ok [a, b] := numbers_of_datum? .difference h
  refine ⟨.number ⟨s.nextMark⟩ (a - b), s.marked, ?_, rfl, rfl⟩
  have hresult : difference args = .ok (a - b) := by
    rw [difference, hnumbers]
    rfl
  rw [call, hresult]
  rfl

theorem answers_product (a b : Int) :
    Answers .product [.number a, .number b] (.number (a * b)) := by
  intro args s h
  have hnumbers : numbers .product args = .ok [a, b] := numbers_of_datum? .product h
  refine ⟨.number ⟨s.nextMark⟩ (a * b), s.marked, ?_, rfl, rfl⟩
  have hresult : product args = .ok (a * b) := by
    rw [product, hnumbers]
    change Except.ok (1 * a * b) = _
    rw [Int.one_mul]
  rw [call, hresult]
  rfl

end Procedures

namespace Evaluator

variable {ev : Evaluation} {env : EnvId} {s t : State} {x : String} {v : Value} {d r : Datum}
  {depth rounds : Nat}

theorem Evaluates.of_environments (h : Evaluates ev env s d r)
    (ht : t.environments = s.environments) : Evaluates ev env t d r :=
  fun expr u hu => h expr u (hu.trans ht)

/-- A step that is done ends the evaluation. -/
theorem finds_eval {expr : Value} (h : (step (eval depth rounds) expr env).Finds s
    fun st => ∃ v, st = .done v ∧ v.datum? = some r) :
    (eval (depth + 1) rounds expr env).Finds s (·.datum? = some r) := by
  refine h.bind fun st t ht hst => ?_
  obtain ⟨v, rfl, hv⟩ := hst
  exact ⟨v, t, by rw [drive_done]; rfl, rfl, hv⟩

/-! ### Rules -/

theorem evaluates_constant (hd : d.isConstant = true) :
    Evaluates (eval (depth + 1) rounds) env s d d := by
  intro expr t _ hexpr
  obtain ⟨hsymbol, hpair⟩ := Value.constant_of_datum? hexpr hd
  exact finds_eval ⟨_, _, step_constant hsymbol hpair, by simp, expr, rfl, hexpr⟩

theorem evaluates_symbol (h : s.lookup env x = some v) (hv : v.datum? = some r) :
    Evaluates (eval (depth + 1) rounds) env s (.symbol x) r := by
  intro expr t ht hexpr
  obtain ⟨m, rfl⟩ := Value.datum?_eq_symbol hexpr
  rw [← State.lookup_of_environments ht] at h
  exact finds_eval ⟨_, _, step_bound h, by simp, v, rfl, hv⟩

/-- By induction on the operands. -/
theorem finds_evlis {ds rs : List Datum} (h : List.Forall₂ (Evaluates ev env s) ds rs)
    {operands : Value} (hoperands : operands.datum? = some (.list ds))
    (ht : t.environments = s.environments) :
    (evlis ev operands env).Finds t (·.datum? = some (.list rs)) := by
  induction h generalizing operands t with
  | nil =>
      have hpair := (Value.constant_of_datum? hoperands rfl).2
      exact ⟨_, _, evlis_of_isPair_eq_false hpair, rfl, hoperands⟩
  | @cons d r ds rs hd _ ih =>
      obtain ⟨m, first, rest, rfl, hfirst, hrest⟩ := Value.datum?_eq_cons hoperands
      rw [evlis_pair]
      refine (hd first t ht hfirst).bind fun v u hu hv => ?_
      refine (ih hrest (hu.trans ht)).bind fun vs w _ hvs => ?_
      exact ⟨_, _, make_apply _ _, rfl, Value.datum?_pair_eq_some_iff.mpr ⟨r, _, hv, hvs, rfl⟩⟩

/-- A built-in procedure on operands that are evaluated first. -/
theorem evaluates_call {m : Mark} {p : Native} {ds rs : List Datum}
    (h : s.lookup env x = some (.native m p))
    (hoperands : List.Forall₂ (Evaluates (eval depth rounds) env s) ds rs)
    (hcall : Procedures.Answers p rs r) :
    Evaluates (eval (depth + 1) rounds) env s (.list (.symbol x :: ds)) r := by
  intro expr t ht hexpr
  obtain ⟨m', m'', operands, rfl, hdata⟩ := Value.datum?_eq_symbol_cons hexpr
  rw [← State.lookup_of_environments ht] at h
  have hlist := (Value.list_of_datum? hdata).1
  refine finds_eval (.of_eq (.bind (finds_evlis hoperands hdata ?_) ?_) ?_ (step_named hlist h))
  · simpa using ht
  · intro args u _ hargs
    obtain ⟨v, w, hanswer, hw, hv⟩ := hcall args (u.trace (.applying (.native m p) args)) hargs
    refine ⟨.done v, w, ?_, by simpa using hw, v, rfl, hv⟩
    rw [apply_native, hanswer]
  · simp

/-- A loop that is left with a constant ends after one step. -/
theorem finds_drive_constant {body : Value} (hd : d.isConstant = true)
    (hbody : body.datum? = some d) (more : Nat) :
    (drive ev (more + 1) (.pending body env)).Finds s (·.datum? = some d) := by
  obtain ⟨hsymbol, hpair⟩ := Value.constant_of_datum? hbody hd
  refine ⟨body, s.trace (.evaluating body), ?_, State.environments_trace _ s, hbody⟩
  rw [drive, bind_apply, step_constant hsymbol hpair]
  simp only [drive_done]
  rfl

/-! ### Steps that leave something to go on with -/

/-- An `if` leaves one of its branches, in the same environment. -/
theorem finds_if {test consequent alternate : Datum} {b : Bool}
    (hfree : s.lookup env Keyword.ifForm.name = none)
    (htest : Evaluates ev env s test (.boolean b)) {expr : Value}
    (hexpr : expr.datum? =
      some (.list [.symbol Keyword.ifForm.name, test, consequent, alternate])) :
    (step ev expr env).Finds s fun st => ∃ body, st = .pending body env ∧
      body.datum? = some (if b then consequent else alternate) := by
  obtain ⟨m, m', operands, rfl, hdata⟩ := Value.datum?_eq_symbol_cons hexpr
  obtain ⟨v₁, v₂, v₃, helements, hv₁, hv₂, hv₃⟩ := Value.elements_of_datum?_three hdata
  have hlist := (Value.list_of_datum? hdata).1
  let s' := s.trace (.evaluating (.pair m (.symbol m' Keyword.ifForm.name) operands))
  have hform : (form ev .ifForm operands env).Finds s' fun st => ∃ body,
      st = .pending body env ∧ body.datum? = some (if b then consequent else alternate) := by
    have hvalue := htest v₁ s' (State.environments_trace _ s) hv₁
    refine .of_eq (hvalue.bind fun v u _ hv => ?_) rfl (form_if (some v₃) helements)
    obtain ⟨_, rfl⟩ := Value.datum?_eq_boolean hv
    cases b with
    | true => exact ⟨_, u, rfl, rfl, v₂, rfl, hv₂⟩
    | false => exact ⟨_, u, rfl, rfl, v₃, rfl, hv₃⟩
  exact hform.of_eq (State.environments_trace _ s)
    (step_keyword hlist hfree Keyword.ifForm.ofName?_name)

/-- A call of a lambda with one parameter leaves its body, in an environment of its own. -/
theorem step_call {m : Mark} {closure : EnvId} {parameter : String} {body expr : Value}
    (h : s.lookup env x = some (.lambda m closure (.single parameter) body))
    (hoperand : Evaluates ev env s d r) (hexpr : expr.datum? = some (.list [.symbol x, d])) :
    ∃ (v : Value) (t : State), step ev expr env s = some (.ok (.pending body ⟨s.environments.size⟩),
        t.grown (callBindings (s.bindings env) (s.bindings closure) (some (parameter, v)))) ∧
      v.datum? = some r ∧ t.environments = s.environments := by
  obtain ⟨m', m'', operands, rfl, hdata⟩ := Value.datum?_eq_symbol_cons hexpr
  have hoperands : List.Forall₂ (Evaluates ev env s) [d] [r] := .cons hoperand .nil
  obtain ⟨args, u, hrun, hu, hargs⟩ := finds_evlis hoperands hdata
    (State.environments_trace (.evaluating (.pair m' (.symbol m'' x) operands)) s)
  obtain ⟨mark, v, rest, rfl, hv, hrest⟩ := Value.datum?_eq_cons hargs
  obtain ⟨mark', rfl⟩ := Value.datum?_eq_nil hrest
  have hsame : u.environments = s.environments := by simpa using hu
  let args : Value := .pair mark v (.nil mark')
  have haccept : (Formal.single parameter).accept args = .ok (some (parameter, v)) := rfl
  let t := u.trace (.applying (.lambda m closure (.single parameter) body) args)
  refine ⟨v, t, ?_, hv, by simpa [t] using hsame⟩
  rw [step_named (Value.list_of_datum? hdata).1 h, bind_apply, hrun]
  simp only
  rw [apply_lambda haccept]
  simp only [State.bindings, hsame]
  rfl

/-! ### Definitions of procedures -/

section Procedure

variable {formals body : Datum} {formal : Formal} {expr : Value}

/-- A lambda captures what is bound where it is made. -/
theorem eval_lambda (hfree : s.lookup env Keyword.lambda.name = none)
    (hformal : ∀ v : Value, v.datum? = some formals → Formal.ofValue? v = some formal)
    (hexpr : expr.datum? = some (.list [.symbol Keyword.lambda.name, formals, body])) :
    ∃ m body' t, eval (depth + 1) rounds expr env s =
        some (.ok (.lambda m ⟨s.environments.size⟩ formal body'), t) ∧
      body'.datum? = some body ∧
      t.environments = s.environments.push (s.bindings env) := by
  obtain ⟨m, m', operands, rfl, hdata⟩ := Value.datum?_eq_symbol_cons hexpr
  obtain ⟨formals', body', helements, hformals, hbody⟩ := Value.elements_of_datum?_two hdata
  let u := s.trace (.evaluating (.pair m (.symbol m' Keyword.lambda.name) operands))
  refine ⟨⟨u.nextMark⟩, body', (u.grown (u.bindings env)).marked, ?_, hbody, ?_⟩
  · have hsize : u.environments.size = s.environments.size := by simp [u]
    rw [eval, bind_apply, step_keyword (Value.list_of_datum? hdata).1 hfree
      Keyword.lambda.ofName?_name, form_lambda helements (hformal formals' hformals), ← hsize]
    simp only [drive_done]
    rfl
  · simp [u, State.grown]

/-- A definition of a procedure binds its name to a lambda that has captured what was bound
before. -/
theorem eval_define_lambda (depth rounds : Nat)
    (hkeyword : ∀ k : Keyword, s.lookup env k.name = none) (hfree : s.lookup env x = none)
    (hformal : ∀ v : Value, v.datum? = some formals → Formal.ofValue? v = some formal)
    (hexpr : expr.datum? = some (.list [.symbol Keyword.define.name, .symbol x,
      .list [.symbol Keyword.lambda.name, formals, body]])) :
    ∃ v t m body', eval (depth + 2) rounds expr env s = some (.ok v, t) ∧
      body'.datum? = some body ∧
      t.environments = ((s.grown (s.bindings env)).bind env x
        (.lambda m ⟨s.environments.size⟩ formal body')).environments := by
  obtain ⟨m, m', operands, rfl, hdata⟩ := Value.datum?_eq_symbol_cons hexpr
  obtain ⟨target, value, helements, htarget, hvalue⟩ := Value.elements_of_datum?_two hdata
  obtain ⟨_, rfl⟩ := Value.datum?_eq_symbol htarget
  let s' := s.trace (.evaluating (.pair m (.symbol m' Keyword.define.name) operands))
  have hsame : s'.environments = s.environments := by simp [s']
  have hlambda : s'.lookup env Keyword.lambda.name = none := by
    simpa [s'] using hkeyword .lambda
  obtain ⟨mark, body', t, hmade, hbody, ht⟩ := eval_lambda hlambda hformal hvalue
  rw [hsame, show s'.bindings env = s.bindings env by simp [s']] at ht
  rw [hsame] at hmade
  have hgrown : (s.grown (s.bindings env)).bindings env = s.bindings env := by
    rw [State.bindings_grown, ite_self]
  have hkept : t.bindings env = s.bindings env := by
    rw [← hgrown, State.bindings, ht]
    rfl
  have hunbound (w : State) (hw : w.bindings env = s.bindings env) :
      (w.bindings env).contains x = false := by
    rw [Bindings.contains, hw]
    rw [State.lookup] at hfree
    rw [hfree]
    rfl
  let procedure : Value := .lambda mark ⟨s.environments.size⟩ formal body'
  refine ⟨.unspecified ⟨t.nextMark⟩, (t.bind env x procedure).marked, mark, body', ?_, hbody, ?_⟩
  · rw [eval, bind_apply, step_keyword (Value.list_of_datum? hdata).1 (hkeyword .define)
      Keyword.define.ofName?_name, form_define helements (hunbound s' (by simp [s'])), bind_apply,
      hmade]
    simp only
    rw [commit_free (hunbound t hkept)]
    simp only [drive_done]
    rfl
  · simp only [State.environments_marked, State.bind, State.setBindings, hgrown, hkept, ht]
    rfl

end Procedure

end Evaluator

end TinyLisp
