import Mathlib.Data.List.Basic
import Mathlib.Order.Filter.AtTopBot.Basic
import TinyLisp.Proofs.Evaluation.Budget
import TinyLisp.Proofs.Evaluation.Direct

/-!
Driving steps in a loop is evaluation in direct style.  Main statement: `eval_iff_derives`, an
expression is evaluated within some budget exactly when the direct style derives its result, and
both leave the same state, reported events included; the same holds of an application that is driven
to its end.
-/

namespace TinyLisp.Evaluator

open Filter Run
open TinyLisp.Task (Derives)

/-! ### From the loop to derivations -/

/-- Whatever a way to evaluate answers is derived. -/
def Sound (ev : Evaluation) : Prop :=
  ∀ expr env s r t, ev expr env s = some (r, t) → Derives (.expression expr env) s r t

/-- What is left to do after a step: nothing, or to evaluate a body. -/
def Finishes : Except Error Step → State → Except Error Value → State → Prop
  | .error e, s, r, t => r = .error e ∧ t = s
  | .ok (.done v), s, r, t => r = .ok v ∧ t = s
  | .ok (.pending body env), s, r, t => Derives (.expression body env) s r t

section Sound

variable {ev : Evaluation} (hev : Sound ev) {s t u : State} {r : Except Error Value}
  {st : Except Error Step} {env : EnvId}

include hev

theorem evlis_sound {list : Value} (h : evlis ev list env s = some (r, t)) :
    Derives (.operands list env) s r t := by
  induction list generalizing s r t with
  | pair m first rest _ ih =>
      rw [evlis_pair] at h
      rcases bind_eq_some_iff.mp h with ⟨e, hfirst, rfl⟩ | ⟨v, s₁, hfirst, h⟩
      · exact .firstFails (hev first env s _ t hfirst)
      · rcases bind_eq_some_iff.mp h with ⟨e, hrest, rfl⟩ | ⟨vs, s₂, hrest, h⟩
        · exact .restFails (hev first env s _ s₁ hfirst) (ih hrest)
        · rw [make_apply] at h
          cases h
          exact .operands (hev first env s _ s₁ hfirst) (ih hrest)
  | _ =>
      rw [evlis_of_isPair_eq_false rfl] at h
      cases h
      exact .ends (.noOperands rfl)

theorem apply_sound {procedure args : Value} (h : apply ev procedure args env s = some (st, t))
    (hfinish : Finishes st t r u) : Derives (.application procedure args env) s r u := by
  by_cases hprocedure : procedure.isProcedure = true
  · cases procedure with
    | lambda m closure formal body =>
        cases hargs : formal.accept args with
        | error cause =>
            rw [apply_rejected hargs] at h
            cases h
            obtain ⟨rfl, rfl⟩ := hfinish
            exact .ends (.rejected hargs)
        | ok own =>
            rw [apply_lambda hargs] at h
            cases h
            exact .body hargs hfinish
    | native m p =>
        rw [apply_native] at h
        split at h
        · next e s₁ hcall =>
            cases h
            obtain ⟨rfl, rfl⟩ := hfinish
            exact .ends (.refused hcall)
        · next v s₁ hcall =>
            cases h
            obtain ⟨rfl, rfl⟩ := hfinish
            exact .ends (.answered hcall)
        · next expr inner s₁ hcall =>
            have huntraced : ∀ result after, untraced ev expr inner s₁ = some (result, after) →
                Derives (.application (.native m p) args env) s result after := by
              intro result after hrun
              simp only [untraced, Option.map_eq_some_iff, Prod.mk.injEq] at hrun
              obtain ⟨⟨result, after⟩, hinner, rfl, rfl⟩ := hrun
              exact .explicit hcall (hev expr inner _ result after hinner)
            rcases bind_eq_some_iff.mp h with ⟨e, hrun, rfl⟩ | ⟨v, after, hrun, h⟩
            · obtain ⟨rfl, rfl⟩ := hfinish
              exact huntraced _ _ hrun
            · cases h
              obtain ⟨rfl, rfl⟩ := hfinish
              exact huntraced _ _ hrun
    | _ => simp [Value.isProcedure] at hprocedure
  · rw [apply_notProcedure (by simpa using hprocedure)] at h
    cases h
    obtain ⟨rfl, rfl⟩ := hfinish
    exact .ends (.notProcedure (by simpa using hprocedure))

/-- A procedure that is known is applied after its operands. -/
theorem call_sound {procedure operands : Value}
    (h : (evlis ev operands env >>= fun args => apply ev procedure args env) s = some (st, t))
    (hfinish : Finishes st t r u) : Derives (.call procedure operands env) s r u := by
  rcases bind_eq_some_iff.mp h with ⟨e, hoperands, rfl⟩ | ⟨args, s₁, hoperands, h⟩
  · obtain ⟨rfl, rfl⟩ := hfinish
    exact .operandsFail (evlis_sound hev hoperands)
  · exact .call (evlis_sound hev hoperands) (apply_sound hev h hfinish)

theorem define_sound {operands expr : Value} {m : Mark} {x : String}
    (helements : operands.elements = [.symbol m x, expr])
    (h : form ev .define operands env s = some (st, t)) (hfinish : Finishes st t r u) :
    Derives (.form .define operands env) s r u := by
  cases hbound : (s.bindings env).contains x with
  | true =>
      rw [form_redefinition helements hbound] at h
      cases h
      obtain ⟨rfl, rfl⟩ := hfinish
      exact .ends (.redefinition helements hbound)
  | false =>
      rw [form_define helements hbound] at h
      rcases bind_eq_some_iff.mp h with ⟨e, hvalue, rfl⟩ | ⟨v, s₁, hvalue, h⟩
      · obtain ⟨rfl, rfl⟩ := hfinish
        exact .valueFails helements hbound (hev expr env s _ _ hvalue)
      · have hvalue := hev expr env s _ s₁ hvalue
        cases hstill : (s₁.bindings env).contains x with
        | true =>
            rw [commit_bound hstill] at h
            cases h
            obtain ⟨rfl, rfl⟩ := hfinish
            exact .definedMeanwhile helements hbound hvalue hstill
        | false =>
            rw [commit_free hstill] at h
            cases h
            obtain ⟨rfl, rfl⟩ := hfinish
            exact .define helements hbound hvalue hstill

theorem if_sound {operands test consequent : Value} (alternate : Option Value)
    (helements : operands.elements = test :: consequent :: alternate.toList)
    (h : form ev .ifForm operands env s = some (st, t)) (hfinish : Finishes st t r u) :
    Derives (.form .ifForm operands env) s r u := by
  rw [form_if _ helements] at h
  rcases bind_eq_some_iff.mp h with ⟨e, htest, rfl⟩ | ⟨v, s₁, htest, h⟩
  · obtain ⟨rfl, rfl⟩ := hfinish
    exact .testFails helements (hev test env s _ _ htest)
  · have htest := hev test env s _ s₁ htest
    unfold branch at h
    split at h
    · next htrue =>
        cases h
        exact .consequent helements htest htrue hfinish
    · next hfalse =>
        have hfalse : v.isTrue = false := by simpa using hfalse
        cases alternate with
        | some alternate =>
            cases h
            exact .alternate helements htest hfalse hfinish
        | none =>
            cases h
            obtain ⟨rfl, rfl⟩ := hfinish
            exact .noAlternate helements htest hfalse

theorem form_sound {k : Keyword} {operands : Value}
    (h : form ev k operands env s = some (st, t)) (hfinish : Finishes st t r u) :
    Derives (.form k operands env) s r u := by
  cases hcount : k.admits operands.elements.length with
  | false =>
      rw [form_malformed hcount] at h
      cases h
      obtain ⟨rfl, rfl⟩ := hfinish
      exact .ends (.malformed hcount)
  | true =>
      cases k with
      | quote =>
          obtain ⟨v, hv⟩ := List.length_eq_one_iff.mp (eq_of_beq hcount)
          rw [form_quote hv] at h
          cases h
          obtain ⟨rfl, rfl⟩ := hfinish
          exact .ends (.quote hv)
      | lambda =>
          obtain ⟨formals, body, helements⟩ := List.length_eq_two.mp (eq_of_beq hcount)
          cases hformal : Formal.ofValue? formals with
          | none =>
              rw [form_badFormals helements hformal] at h
              cases h
              obtain ⟨rfl, rfl⟩ := hfinish
              exact .ends (.badFormals helements hformal)
          | some formal =>
              rw [form_lambda helements hformal] at h
              cases h
              obtain ⟨rfl, rfl⟩ := hfinish
              exact .ends (.lambda helements hformal)
      | define =>
          obtain ⟨target, expr, helements⟩ := List.length_eq_two.mp (eq_of_beq hcount)
          cases htarget : target.symbol? with
          | none =>
              rw [form_badTarget helements htarget] at h
              cases h
              obtain ⟨rfl, rfl⟩ := hfinish
              exact .ends (.badTarget helements htarget)
          | some x =>
              cases target with
              | symbol m y => exact define_sound hev helements h hfinish
              | _ => simp [Value.symbol?] at htarget
      | ifForm =>
          have hlength : operands.elements.length = 2 ∨ operands.elements.length = 3 := by
            simpa [Keyword.admits] using hcount
          rcases hlength with hlength | hlength
          · obtain ⟨test, consequent, helements⟩ := List.length_eq_two.mp hlength
            exact if_sound hev none helements h hfinish
          · obtain ⟨test, consequent, alternate, helements⟩ := List.length_eq_three.mp hlength
            exact if_sound hev (some alternate) helements h hfinish
      | currentEnvironment =>
          have helements := List.length_eq_zero_iff.mp (eq_of_beq hcount)
          rw [form_currentEnvironment helements] at h
          cases h
          obtain ⟨rfl, rfl⟩ := hfinish
          exact .ends (.currentEnvironment helements)
      | toggleDebug =>
          have helements := List.length_eq_zero_iff.mp (eq_of_beq hcount)
          rw [form_toggleDebug helements] at h
          cases h
          obtain ⟨rfl, rfl⟩ := hfinish
          exact .ends (.toggleDebug helements)

theorem step_sound {expr : Value} (h : step ev expr env s = some (st, t))
    (hfinish : Finishes st t r u) : Derives (.expression expr env) s r u := by
  cases expr with
  | symbol m x =>
      cases hlookup : s.lookup env x with
      | none =>
          rw [step_free hlookup] at h
          cases h
          obtain ⟨rfl, rfl⟩ := hfinish
          exact .ends (.free hlookup)
      | some v =>
          rw [step_bound hlookup] at h
          cases h
          obtain ⟨rfl, rfl⟩ := hfinish
          exact .ends (.bound hlookup)
  | pair m head operands =>
      cases hlist : operands.isList with
      | false =>
          rw [step_improper hlist] at h
          cases h
          obtain ⟨rfl, rfl⟩ := hfinish
          exact .ends (.improper hlist)
      | true =>
          cases hhead : head.symbol? with
          | none =>
              rw [step_computed hlist hhead] at h
              rcases bind_eq_some_iff.mp h with ⟨e, hrun, rfl⟩ | ⟨procedure, s₁, hrun, h⟩
              · obtain ⟨rfl, rfl⟩ := hfinish
                exact .headFails hlist hhead (hev head env _ _ _ hrun)
              · exact .computed hlist hhead (hev head env _ _ s₁ hrun) (call_sound hev h hfinish)
          | some x =>
              cases head with
              | symbol m' y =>
                  cases hlookup : s.lookup env y with
                  | some procedure =>
                      rw [step_named hlist hlookup] at h
                      exact .named hlist hlookup (call_sound hev h hfinish)
                  | none =>
                      cases hk : Keyword.ofName? y with
                      | some k =>
                          rw [step_keyword hlist hlookup hk] at h
                          exact .keyword hlist hlookup hk (form_sound hev h hfinish)
                      | none =>
                          rw [step_unknown hlist hlookup hk] at h
                          cases h
                          obtain ⟨rfl, rfl⟩ := hfinish
                          exact .ends (.unknown hlist hlookup hk)
              | _ => simp [Value.symbol?] at hhead
  | _ =>
      rw [step_constant rfl rfl] at h
      cases h
      obtain ⟨rfl, rfl⟩ := hfinish
      exact .ends (.constant rfl rfl)

theorem drive_sound {rounds : Nat} {st : Step} (h : drive ev rounds st s = some (r, t)) :
    Finishes (.ok st) s r t := by
  induction rounds generalizing st s with
  | zero =>
      cases st with
      | done v =>
          cases h
          exact ⟨rfl, rfl⟩
      | pending body env => cases h
  | succ rounds ih =>
      cases st with
      | done v =>
          cases h
          exact ⟨rfl, rfl⟩
      | pending body env =>
          rw [drive] at h
          rcases bind_eq_some_iff.mp h with ⟨e, hstep, rfl⟩ | ⟨st, s₁, hstep, h⟩
          · exact step_sound hev hstep ⟨rfl, rfl⟩
          · exact step_sound hev hstep (ih h)

/-- A step that is driven to its end is derived. -/
theorem drive_step_sound {rounds : Nat} {expr : Value}
    (h : (step ev expr env >>= drive ev rounds) s = some (r, t)) :
    Derives (.expression expr env) s r t := by
  rcases bind_eq_some_iff.mp h with ⟨e, hstep, rfl⟩ | ⟨st, s₁, hstep, h⟩
  · exact step_sound hev hstep ⟨rfl, rfl⟩
  · exact step_sound hev hstep (drive_sound hev h)

end Sound

theorem eval_sound (depth rounds : Nat) : Sound (eval depth rounds) := by
  induction depth with
  | zero =>
      intro expr env s r t h
      cases h
  | succ depth ih =>
      intro expr env s r t h
      rw [eval] at h
      exact drive_step_sound ih h

/-- An application that is driven to its end is derived. -/
theorem apply_drive_sound {ev : Evaluation} (hev : Sound ev) {procedure args : Value} {env : EnvId}
    {rounds : Nat} {s t : State} {r : Except Error Value}
    (h : (apply ev procedure args env >>= drive ev rounds) s = some (r, t)) :
    Derives (.application procedure args env) s r t := by
  rcases bind_eq_some_iff.mp h with ⟨e, happly, rfl⟩ | ⟨st, u, happly, hdrive⟩
  · exact apply_sound hev happly ⟨rfl, rfl⟩
  · exact apply_sound hev happly (drive_sound hev hdrive)

/-! ### From derivations to the loop -/

/-- A task taken up within a budget. -/
def within (n : Nat) : Task → Run Value
  | .expression expr env => step (eval n n) expr env >>= drive (eval n n) n
  | .form k operands env => form (eval n n) k operands env >>= drive (eval n n) n
  | .call procedure operands env =>
      (evlis (eval n n) operands env >>= fun args => apply (eval n n) procedure args env) >>=
        drive (eval n n) n
  | .operands list env => evlis (eval n n) list env
  | .application procedure args env => apply (eval n n) procedure args env >>= drive (eval n n) n

section Eventually

variable {s t u : State} {env : EnvId} {answer : Except Error Value × State}

/-- A task without tasks of its own ends within every budget. -/
theorem within_of_ends {task : Task} {r : Except Error Value} (h : task.Ends s r t) (n : Nat) :
    within n task s = some (r, t) := by
  cases h with
  | bound h => simp [within, step_bound h]
  | free h => simp [within, step_free h]
  | constant hsymbol hpair => simp [within, step_constant hsymbol hpair]
  | improper h => simp [within, step_improper h]
  | unknown hlist hfree hk => simp [within, step_unknown hlist hfree hk]
  | malformed h => simp [within, form_malformed h, badForm]
  | quote h => simp [within, form_quote h]
  | lambda h hformal => simp [within, form_lambda h hformal]
  | badFormals h hformal => simp [within, form_badFormals h hformal]
  | badTarget h htarget => simp [within, form_badTarget h htarget]
  | redefinition h hbound => simp [within, form_redefinition h hbound]
  | currentEnvironment h => simp [within, form_currentEnvironment h]
  | toggleDebug h => simp [within, form_toggleDebug h]
  | noOperands h => exact evlis_of_isPair_eq_false h
  | rejected h => simp [within, apply_rejected h]
  | answered h => simp [within, apply_native, h]
  | refused h => simp [within, apply_native, h]
  | notProcedure h => simp [within, apply_notProcedure h]

/-- One nested evaluation more is one more of the budget. -/
theorem eventually_eval {expr : Value}
    (h : ∀ᶠ n in atTop, within n (.expression expr env) s = some answer) :
    ∀ᶠ n in atTop, eval n n expr env s = some answer := by
  obtain ⟨least, hleast⟩ := eventually_atTop.mp h
  refine eventually_atTop.mpr ⟨least + 1, fun n hn => ?_⟩
  obtain ⟨k, rfl⟩ : ∃ k, n = k + 1 := ⟨n - 1, by omega⟩
  have hcovers : Covers (eval k (k + 1)) (eval k k) := eval_covers le_rfl (Nat.le_succ k)
  rw [eval]
  exact ((step_covered hcovers expr env).bind fun st => drive_covered hcovers (Nat.le_succ k) st)
    s answer (hleast k (by omega))

/-- One body more is one more of the budget. -/
theorem eventually_pending {body : Value}
    (h : ∀ᶠ n in atTop, within n (.expression body env) s = some answer) :
    ∀ᶠ n in atTop, drive (eval n n) n (.pending body env) s = some answer := by
  obtain ⟨least, hleast⟩ := eventually_atTop.mp h
  refine eventually_atTop.mpr ⟨least + 1, fun n hn => ?_⟩
  obtain ⟨k, rfl⟩ : ∃ k, n = k + 1 := ⟨n - 1, by omega⟩
  have hcovers : Covers (eval (k + 1) (k + 1)) (eval k k) :=
    eval_covers (Nat.le_succ k) (Nat.le_succ k)
  rw [drive]
  exact ((step_covered hcovers body env).bind fun st => drive_covered hcovers le_rfl st)
    s answer (hleast k (by omega))

/-- Whatever is derived is found within every budget that is large enough. -/
theorem eventually_within {task : Task} {r : Except Error Value} (h : task.Derives s r t) :
    ∀ᶠ n in atTop, within n task s = some (r, t) := by
  induction h with
  | ends h => exact Eventually.of_forall (within_of_ends h)
  | named hlist h _ ih =>
      filter_upwards [ih] with n hn
      simpa only [within, bind_apply, step_named hlist h] using hn
  | keyword hlist hfree hk _ ih =>
      filter_upwards [ih] with n hn
      simpa only [within, bind_apply, step_keyword hlist hfree hk] using hn
  | computed hlist hsymbol _ _ ihhead ihcall =>
      filter_upwards [eventually_eval ihhead, ihcall] with n hhead hcall
      simpa only [within, bind_apply, step_computed hlist hsymbol, hhead] using hcall
  | headFails hlist hsymbol _ ih =>
      filter_upwards [eventually_eval ih] with n hhead
      simp only [within, bind_apply, step_computed hlist hsymbol, hhead]
  | define h hfree _ hstill ih =>
      filter_upwards [eventually_eval ih] with n hvalue
      simp [within, form_define h hfree, hvalue, commit_free hstill]
  | definedMeanwhile h hfree _ hbound ih =>
      filter_upwards [eventually_eval ih] with n hvalue
      simp [within, form_define h hfree, hvalue, commit_bound hbound]
  | valueFails h hfree _ ih =>
      filter_upwards [eventually_eval ih] with n hvalue
      simp [within, form_define h hfree, hvalue]
  | consequent h _ htrue _ ihtest ihbranch =>
      filter_upwards [eventually_eval ihtest, eventually_pending ihbranch] with n htest hbranch
      simpa [within, form_if _ h, htest, branch, htrue] using hbranch
  | @alternate _ _ _ _ _ _ _ _ _ other h _ hfalse _ ihtest ihbranch =>
      filter_upwards [eventually_eval ihtest, eventually_pending ihbranch] with n htest hbranch
      simpa [within, form_if (some other) h, htest, branch, hfalse] using hbranch
  | noAlternate h _ hfalse ih =>
      filter_upwards [eventually_eval ih] with n htest
      simp [within, form_if none h, htest, branch, hfalse]
  | testFails h _ ih =>
      filter_upwards [eventually_eval ih] with n htest
      simp [within, form_if _ h, htest]
  | call _ _ ihoperands ihapplication =>
      filter_upwards [ihoperands, ihapplication] with n hoperands happlication
      simp only [within] at hoperands happlication
      simpa only [within, bind_apply, hoperands] using happlication
  | operandsFail _ ih =>
      filter_upwards [ih] with n hoperands
      simp only [within] at hoperands
      simp only [within, bind_apply, hoperands]
  | operands _ _ ihfirst ihrest =>
      filter_upwards [eventually_eval ihfirst, ihrest] with n hfirst hrest
      simp only [within] at hrest
      simp [within, evlis_pair, hfirst, hrest]
  | firstFails _ ih =>
      filter_upwards [eventually_eval ih] with n hfirst
      simp [within, evlis_pair, hfirst]
  | restFails _ _ ihfirst ihrest =>
      filter_upwards [eventually_eval ihfirst, ihrest] with n hfirst hrest
      simp only [within] at hrest
      simp [within, evlis_pair, hfirst, hrest]
  | body h _ ih =>
      filter_upwards [eventually_pending ih] with n hbody
      simpa [within, apply_lambda h] using hbody
  | @explicit _ _ _ r _ _ _ _ _ _ h _ ih =>
      filter_upwards [eventually_eval ih] with n hexpr
      cases r <;> simp [within, apply_native, h, untraced, hexpr]

end Eventually

/-- The loop and the direct style agree on expressions and on applications: an answer is found
within some budget exactly when it is derived, with the same state and hence the same events. -/
theorem eval_iff_derives (s t : State) (r : Except Error Value) :
    (∀ expr env,
      (∃ depth rounds, eval depth rounds expr env s = some (r, t)) ↔
        Derives (.expression expr env) s r t) ∧
    ∀ procedure args env,
      (∃ depth rounds, (apply (eval depth rounds) procedure args env >>=
          drive (eval depth rounds) rounds) s = some (r, t)) ↔
        Derives (.application procedure args env) s r t := by
  refine ⟨fun expr env => ⟨?_, ?_⟩, fun procedure args env => ⟨?_, ?_⟩⟩
  · rintro ⟨depth, rounds, h⟩
    exact eval_sound depth rounds expr env s r t h
  · intro h
    obtain ⟨n, hn⟩ := (eventually_eval (eventually_within h)).exists
    exact ⟨n, n, hn⟩
  · rintro ⟨depth, rounds, h⟩
    have hev := eval_sound depth rounds
    rcases bind_eq_some_iff.mp h with ⟨e, happly, rfl⟩ | ⟨st, u, happly, hdrive⟩
    · exact apply_sound hev happly ⟨rfl, rfl⟩
    · exact apply_sound hev happly (drive_sound hev hdrive)
  · intro h
    obtain ⟨n, hn⟩ := (eventually_within h).exists
    exact ⟨n, n, hn⟩

end TinyLisp.Evaluator
