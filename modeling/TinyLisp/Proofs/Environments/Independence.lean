import TinyLisp.Proofs.Evaluation.Adequacy
import TinyLisp.Proofs.Procedures.Aside
import TinyLisp.Proofs.Procedures.Confined

/-!
Work that does not depend on the environments.  An expression whose names mean the same over all of
some environments, and which applies nothing that evaluates expressions in its turn, has one result
over all of them and leaves one state but for these; what stands behind `quote` is no expression.
Main definitions: `Task.Independent` and `Value.Settled`.  Main statement: `independent_of_settled`,
by one lemma for each task and each kind of expression.
-/

namespace TinyLisp

open Evaluator

namespace State

/-- The state with other environments. -/
def withEnvironments (s : State) (environments : Array Bindings) : State :=
  { s with environments := environments }

variable (s : State) (environments : Array Bindings)

theorem trace_withEnvironments (e : Event) :
    (s.withEnvironments environments).trace e = (s.trace e).withEnvironments environments := by
  unfold trace
  split <;> split <;> first | rfl | contradiction

theorem withEnvironments_aside : Aside (withEnvironments · environments) where
  nextMark _ := rfl
  ports _ := rfl
  files _ := rfl
  withMark _ _ := rfl
  withPorts _ _ := rfl
  withFiles _ _ := rfl
  report _ _ := rfl
  print _ _ := rfl

end State

/-! ### Expressions and what they are handed -/

namespace Value

/-- Whether what follows a head is quoted, which takes that `quote` is the special form. -/
def isQuotation (quoting : Bool) (head : Value) : Bool :=
  quoting && head.symbol? == some Keyword.quote.name

/-- The expressions in a value at a position: itself and those inside it, but for what is quoted. -/
def expressionsAt (quoting : Bool) : Position → Value → List Value
  | .alone, pair m head operands =>
      pair m head operands :: (expressionsAt quoting .alone head ++
        if head.isQuotation quoting then [] else expressionsAt quoting .tail operands)
  | .tail, pair _ first rest =>
      expressionsAt quoting .alone first ++ expressionsAt quoting .tail rest
  | .alone, v => [v]
  | .tail, _ => []

/-- With a combination its head is among the expressions too. -/
theorem head_mem_expressionsAt {quoting : Bool} {m : Mark} {head operands v : Value} {p : Position}
    (h : pair m head operands ∈ v.expressionsAt quoting p) : head ∈ v.expressionsAt quoting p := by
  have hself (w : Value) : w ∈ w.expressionsAt quoting .alone := by
    cases w <;> simp [expressionsAt]
  induction v generalizing p with
  | pair m' first rest ihFirst ihRest =>
      cases p with
      | alone =>
          simp only [expressionsAt, List.mem_cons, List.mem_append] at h ⊢
          rcases h with heq | hfirst | hrest
          · cases heq
            exact Or.inr (Or.inl (hself head))
          · exact Or.inr (Or.inl (ihFirst hfirst))
          · by_cases hquoted : first.isQuotation quoting = true
            · rw [if_pos hquoted] at hrest
              cases hrest
            · rw [if_neg hquoted] at hrest ⊢
              exact Or.inr (Or.inr (ihRest hrest))
      | tail =>
          simp only [expressionsAt, List.mem_append] at h ⊢
          exact h.imp ihFirst ihRest
  | _ => cases p <;> simp [expressionsAt] at h

/-- Whether applying a value evaluates expressions. -/
def runsCode : Value → Bool
  | lambda _ _ _ _ => true
  | native _ .eval => true
  | _ => false

/-- Whether there is nothing in a value that evaluates expressions. -/
def isInert : Value → Bool
  | pair _ first rest => first.isInert && rest.isInert
  | v => !v.runsCode

theorem isInert_hereditary : Hereditary fun v => v.isInert = true := by
  refine ⟨fun v hv => ?_, fun m first rest => by simp [isInert]⟩
  cases v with
  | pair m first rest => cases hv
  | lambda m closure formal body => cases hv
  | native m p => cases hv
  | _ => rfl

theorem runsCode_of_isInert {v : Value} (h : v.isInert = true) : v.runsCode = false := by
  cases v with
  | pair m first rest => rfl
  | _ => simpa [isInert] using h

end Value

/-! ### Tasks that come to the same over some environments -/

/-- Wherever it is taken up, the task comes to the same result over all of some environments, and
leaves the same state but for these; a value it comes to is as described. -/
def Task.Independent (A : Set (Array Bindings)) (P : Value → Prop) (task : Task) : Prop :=
  ∀ s : State, ∃ (r : Except Error Value) (u : State), Yields r P ∧
    ∀ a ∈ A, task.Derives (s.withEnvironments a) r (u.withEnvironments a)

section Independence

variable {A : Set (Array Bindings)} {P : Value → Prop} (hP : Value.Hereditary P)
  (hsymbol : ∀ m x, P (.symbol m x)) {env : EnvId}

include hP hsymbol in
/-- Procedures that evaluate no expressions do not even look at the environments. -/
theorem independent_application {procedure args : Value} (hprocedure : procedure.runsCode = false)
    (hargs : P args) : (Task.application procedure args env).Independent A P := by
  intro s
  let e : Event := .applying procedure args
  by_cases hnative : procedure.isProcedure = true
  · cases procedure with
    | native m p =>
        have hcall (a : Array Bindings) : Procedures.call p args ((s.withEnvironments a).trace e) =
            ((Procedures.call p args (s.trace e)).1,
              (Procedures.call p args (s.trace e)).2.withEnvironments a) := by
          rw [State.trace_withEnvironments]
          exact Procedures.call_aside (State.withEnvironments_aside a) p args (s.trace e)
        have hanswer := (Procedures.call_confined hP p (fun _ => hsymbol) hargs (s.trace e)).2
        rcases hrun : Procedures.call p args (s.trace e) with ⟨error | (v | ⟨expr, inner⟩), u⟩
        · refine ⟨.error error, u, nofun, fun a _ => .ends (.refused ?_)⟩
          rw [hcall, hrun]
        · rw [hrun] at hanswer
          refine ⟨.ok v, u, Yields.pure (hanswer _ rfl), fun a _ => .ends (.answered ?_)⟩
          rw [hcall, hrun]
        · obtain rfl := Procedures.eq_eval_of_call hrun
          cases hprocedure
    | lambda m closure formal body => cases hprocedure
    | _ => cases hnative
  · refine ⟨.error (.apply (.notProcedure procedure.text)), s.trace e, nofun, fun a _ => ?_⟩
    rw [← State.trace_withEnvironments]
    exact .ends (.notProcedure (by simpa using hnative))

/-- By induction on the operands, which are evaluated one after the other. -/
theorem independent_operands (hP : Value.Hereditary P) {list : Value} (hlist : P list)
    (h : ∀ e ∈ list.elements, (Task.expression e env).Independent A P) :
    (Task.operands list env).Independent A P := by
  induction list with
  | pair m first rest _ ih =>
      intro s
      obtain ⟨-, hrest⟩ := (hP.pair_iff m first rest).mp hlist
      obtain ⟨r, t, hr, hfirst⟩ := h first List.mem_cons_self s
      cases r with
      | error e => exact ⟨.error e, t, nofun, fun a ha => .firstFails (hfirst a ha)⟩
      | ok v =>
          obtain ⟨r', u, hr', hothers⟩ := ih hrest (fun e he => h e (List.mem_cons_of_mem _ he)) t
          cases r' with
          | error e =>
              exact ⟨.error e, u, nofun, fun a ha => .restFails (hfirst a ha) (hothers a ha)⟩
          | ok vs =>
              have hpair : P (.pair ⟨u.nextMark⟩ v vs) :=
                (hP.pair_iff _ _ _).mpr ⟨hr v rfl, hr' vs rfl⟩
              exact ⟨_, u.marked, Yields.pure hpair,
                fun a ha => .operands (hfirst a ha) (hothers a ha)⟩
  | _ => exact fun s => ⟨_, s, Yields.pure hlist, fun a _ => .ends (.noOperands rfl)⟩

include hP hsymbol in
theorem independent_call {procedure operands : Value} (hprocedure : procedure.runsCode = false)
    (hlist : P operands)
    (h : ∀ e ∈ operands.elements, (Task.expression e env).Independent A P) :
    (Task.call procedure operands env).Independent A P := by
  intro s
  obtain ⟨r, t, hr, hoperands⟩ := independent_operands hP hlist h s
  cases r with
  | error e => exact ⟨.error e, t, nofun, fun a ha => .operandsFail (hoperands a ha)⟩
  | ok args =>
      have happlication : (Task.application procedure args env).Independent A P :=
        independent_application hP hsymbol hprocedure (hr args rfl)
      obtain ⟨r', u, hr', happlication⟩ := happlication t
      exact ⟨r', u, hr', fun a ha => .call (hoperands a ha) (happlication a ha)⟩

/-- A special form with the wrong number of operands is refused. -/
theorem independent_malformed {k : Keyword} {operands : Value}
    (h : ¬ k.admits operands.elements.length = true) :
    (Task.form k operands env).Independent A P := by
  intro s
  refine ⟨.error (.eval (.badForm (formText k operands))), s, nofun, fun a _ => ?_⟩
  exact .ends (.malformed (by simpa using h))

/-- A quotation comes to what is quoted. -/
theorem independent_quote (hP : Value.Hereditary P) {operands : Value} (hoperands : P operands) :
    (Task.form .quote operands env).Independent A P := by
  by_cases hadmits : Keyword.quote.admits operands.elements.length = true
  · obtain ⟨v, hv⟩ := List.length_eq_one_iff.mp (by simpa [Keyword.admits] using hadmits)
    have hmem : v ∈ operands.elements := by
      rw [hv]
      exact List.mem_cons_self
    have hquoted := hP.inherited.of_mem_elements hoperands hmem
    exact fun s => ⟨.ok v, s, .pure hquoted, fun a _ => .ends (.quote hv)⟩
  · exact independent_malformed hadmits

theorem eq_of_admits_if {vs : List Value} (h : Keyword.ifForm.admits vs.length = true) :
    ∃ test consequent, ∃ alternate : Option Value, vs = test :: consequent :: alternate.toList := by
  match vs with
  | [test, consequent] => exact ⟨test, consequent, none, rfl⟩
  | [test, consequent, alternate] => exact ⟨test, consequent, some alternate, rfl⟩
  | [] | [_] | _ :: _ :: _ :: _ :: _ => simp [Keyword.admits] at h

/-- An `if` comes to what its test and then one of its branches come to. -/
theorem independent_if (hP : Value.Hereditary P) {operands : Value}
    (h : ∀ e ∈ operands.elements, (Task.expression e env).Independent A P) :
    (Task.form .ifForm operands env).Independent A P := by
  by_cases hadmits : Keyword.ifForm.admits operands.elements.length = true
  · intro s
    obtain ⟨test, consequent, alternate, hshape⟩ := eq_of_admits_if hadmits
    rw [hshape] at h
    obtain ⟨r, t, _, htest⟩ := h test List.mem_cons_self s
    cases r with
    | error e => exact ⟨.error e, t, nofun, fun a ha => .testFails hshape (htest a ha)⟩
    | ok v =>
        by_cases htrue : v.isTrue = true
        · obtain ⟨r', u, hr', hbranch⟩ :=
            h consequent (List.mem_cons_of_mem _ List.mem_cons_self) t
          exact ⟨r', u, hr', fun a ha => .consequent hshape (htest a ha) htrue (hbranch a ha)⟩
        · rw [Bool.not_eq_true] at htrue
          cases alternate with
          | none =>
              refine ⟨_, t.marked, .pure (hP.plain (.unspecified ⟨t.nextMark⟩) rfl), fun a ha => ?_⟩
              exact .noAlternate hshape (htest a ha) htrue
          | some alternate =>
              obtain ⟨r', u, hr', hbranch⟩ := h alternate (by simp) t
              exact ⟨r', u, hr', fun a ha => .alternate hshape (htest a ha) htrue (hbranch a ha)⟩
  · exact independent_malformed hadmits

section Expressions

variable {m m' : Mark} {x : String} {head operands : Value}

theorem independent_constant {expr : Value} (hexpr : P expr) (hsymbol : expr.symbol? = none)
    (hpair : expr.isPair = false) : (Task.expression expr env).Independent A P := by
  refine fun s => ⟨.ok expr, s.trace (.evaluating expr), .pure hexpr, fun a _ => ?_⟩
  rw [← State.trace_withEnvironments]
  exact .ends (.constant hsymbol hpair)

theorem independent_bound {w : Value} (hw : P w)
    (h : ∀ a ∈ A, (a.getD env.index ∅).find? x = some w) :
    (Task.expression (.symbol m x) env).Independent A P := by
  refine fun s => ⟨.ok w, s.trace (.evaluating (.symbol m x)), .pure hw, fun a ha => ?_⟩
  rw [← State.trace_withEnvironments]
  exact .ends (.bound (h a ha))

theorem independent_free (h : ∀ a ∈ A, (a.getD env.index ∅).find? x = none) :
    (Task.expression (.symbol m x) env).Independent A P := by
  refine fun s => ⟨.error (.unbound x), s.trace (.evaluating (.symbol m x)), nofun, fun a ha => ?_⟩
  rw [← State.trace_withEnvironments]
  exact .ends (.free (h a ha))

theorem independent_improper (h : operands.isList = false) :
    (Task.expression (.pair m head operands) env).Independent A P := by
  let expr : Value := .pair m head operands
  refine fun s => ⟨.error (.eval (.improperCombination expr.text)), s.trace (.evaluating expr),
    nofun, fun a _ => ?_⟩
  rw [← State.trace_withEnvironments]
  exact .ends (.improper h)

theorem independent_named {procedure : Value} (hlist : operands.isList = true)
    (h : ∀ a ∈ A, (a.getD env.index ∅).find? x = some procedure)
    (hcall : (Task.call procedure operands env).Independent A P) :
    (Task.expression (.pair m (.symbol m' x) operands) env).Independent A P := by
  intro s
  obtain ⟨r, u, hr, hderives⟩ := hcall (s.trace (.evaluating (.pair m (.symbol m' x) operands)))
  refine ⟨r, u, hr, fun a ha => .named hlist (h a ha) ?_⟩
  rw [State.trace_withEnvironments]
  exact hderives a ha

theorem independent_keyword {k : Keyword} (hlist : operands.isList = true)
    (h : ∀ a ∈ A, (a.getD env.index ∅).find? k.name = none)
    (hform : (Task.form k operands env).Independent A P) :
    (Task.expression (.pair m (.symbol m' k.name) operands) env).Independent A P := by
  intro s
  let expr : Value := .pair m (.symbol m' k.name) operands
  obtain ⟨r, u, hr, hderives⟩ := hform (s.trace (.evaluating expr))
  refine ⟨r, u, hr, fun a ha => .keyword hlist (h a ha) k.ofName?_name ?_⟩
  rw [State.trace_withEnvironments]
  exact hderives a ha

theorem independent_computed (hlist : operands.isList = true) (hsymbol : head.symbol? = none)
    (hhead : (Task.expression head env).Independent A P)
    (hcall : ∀ v, P v → (Task.call v operands env).Independent A P) :
    (Task.expression (.pair m head operands) env).Independent A P := by
  intro s
  obtain ⟨r, t, hr, hderives⟩ := hhead (s.trace (.evaluating (.pair m head operands)))
  cases r with
  | error e =>
      refine ⟨.error e, t, nofun, fun a ha => .headFails hlist hsymbol ?_⟩
      rw [State.trace_withEnvironments]
      exact hderives a ha
  | ok v =>
      obtain ⟨r', u, hr', hcall⟩ := hcall v (hr v rfl) t
      refine ⟨r', u, hr', fun a ha => .computed hlist hsymbol ?_ (hcall a ha)⟩
      rw [State.trace_withEnvironments]
      exact hderives a ha

end Expressions

/-- An expression, looked at without those inside it, is in order: its name means the same over all
of the environments, namely a value as described or one of two special forms, and what it applies
evaluates no expressions. -/
structure Value.Settled (A : Set (Array Bindings)) (P : Value → Prop) (env : EnvId)
    (known : String → Option Value) (e : Value) : Prop where
  agrees : ∀ x, e.symbol? = some x → ∀ a ∈ A, (a.getD env.index ∅).find? x = known x
  value : ∀ x, e.symbol? = some x → ∀ w, known x = some w → P w
  keyword : ∀ x, e.symbol? = some x → known x = none →
    x = Keyword.ifForm.name ∨ x = Keyword.quote.name
  named : ∀ m m' x operands, e = .pair m (.symbol m' x) operands →
    ∀ w, known x = some w → w.runsCode = false
  computed : ∀ m head operands, e = .pair m head operands → head.symbol? = none →
    ∀ v, P v → v.runsCode = false

/-- Behind a name that stands for a value nothing is quoted. -/
theorem isQuotation_of_known {known : String → Option Value} {m : Mark} {x : String} {w : Value}
    (h : known x = some w) :
    ¬ (Value.symbol m x).isQuotation (known Keyword.quote.name).isNone = true := by
  by_cases hx : x = Keyword.quote.name
  · rw [← hx, h]
    simp [Value.isQuotation]
  · simp [Value.isQuotation, Value.symbol?, hx]

/-- What follows `if` is not quoted. -/
theorem not_isQuotation_if {quoting : Bool} {m : Mark} :
    ¬ (Value.symbol m Keyword.ifForm.name).isQuotation quoting = true := by
  simp [Value.isQuotation, Value.symbol?, Keyword.name]

include hP hsymbol in
/-- By induction on the value: it does not depend on the environments when it is an expression, nor
do its elements when it is a list of operands. -/
theorem independent_of_settled {known : String → Option Value} {v : Value} (hv : P v) :
    ((∀ e ∈ v.expressionsAt (known Keyword.quote.name).isNone .alone, e.Settled A P env known) →
      (Task.expression v env).Independent A P) ∧
    ((∀ e ∈ v.expressionsAt (known Keyword.quote.name).isNone .tail, e.Settled A P env known) →
      ∀ e ∈ v.elements, (Task.expression e env).Independent A P) := by
  induction v with
  | pair m head operands ihHead ihOperands =>
      obtain ⟨hhead, hoperands⟩ := (hP.pair_iff m head operands).mp hv
      obtain ⟨ihHead, -⟩ := ihHead hhead
      obtain ⟨-, ihOperands⟩ := ihOperands hoperands
      refine ⟨fun h => ?_, fun h e he => ?_⟩
      · obtain ⟨hself, hparts⟩ := List.forall_mem_cons.mp h
        obtain ⟨hhead', hoperands'⟩ := List.forall_mem_append.mp hparts
        by_cases hlist : operands.isList = true
        · cases hname : head.symbol? with
          | none =>
              rw [if_neg (by simp [Value.isQuotation, hname])] at hoperands'
              refine independent_computed hlist hname (ihHead hhead') fun w hw => ?_
              have hquiet := hself.computed m head operands rfl hname w hw
              exact independent_call hP hsymbol hquiet hoperands (ihOperands hoperands')
          | some x =>
              cases head with
              | symbol m' y =>
                  cases hname
                  have hsettled := hhead' _ (List.mem_singleton.mpr rfl)
                  have hagrees := hsettled.agrees x rfl
                  cases hknown : known x with
                  | some w =>
                      rw [if_neg (isQuotation_of_known hknown)] at hoperands'
                      rw [hknown] at hagrees
                      have hquiet := hself.named m m' x operands rfl w hknown
                      exact independent_named hlist hagrees
                        (independent_call hP hsymbol hquiet hoperands (ihOperands hoperands'))
                  | none =>
                      rw [hknown] at hagrees
                      rcases hsettled.keyword x rfl hknown with rfl | rfl
                      · rw [if_neg not_isQuotation_if] at hoperands'
                        exact independent_keyword hlist hagrees
                          (independent_if hP (ihOperands hoperands'))
                      · exact independent_keyword hlist hagrees (independent_quote hP hoperands)
              | _ => cases hname
        · exact independent_improper (by simpa using hlist)
      · obtain ⟨hfirst, hrest⟩ := List.forall_mem_append.mp h
        rcases List.mem_cons.mp he with rfl | he
        · exact ihHead hfirst
        · exact ihOperands hrest e he
  | symbol m x =>
      refine ⟨fun h => ?_, fun _ => List.forall_mem_nil _⟩
      have hsettled := h _ (List.mem_singleton.mpr rfl)
      have hagrees := hsettled.agrees x rfl
      cases hknown : known x with
      | some w =>
          rw [hknown] at hagrees
          exact independent_bound (hsettled.value x rfl w hknown) hagrees
      | none =>
          rw [hknown] at hagrees
          exact independent_free hagrees
  | _ => exact ⟨fun _ => independent_constant hv rfl rfl, fun _ => List.forall_mem_nil _⟩

end Independence

end TinyLisp
