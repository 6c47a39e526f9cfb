import TinyLisp.Proofs.Evaluation.Equations

/-!
Operands.  Whatever it takes to evaluate them, they are evaluated from left to right and each once,
and nothing is evaluated after the first that fails; their values come in a list as long as theirs,
with the same object at its end.  Main statement: `evlis_eq_some_iff`.
-/

namespace TinyLisp

open Run

namespace State

variable (vs : List Value) (tail : Value) (s : State)

theorem makeListWithTail_cons (v : Value) :
    makeListWithTail (v :: vs) tail s =
      (.pair ⟨(makeListWithTail vs tail s).2.nextMark⟩ v (makeListWithTail vs tail s).1,
        (makeListWithTail vs tail s).2.marked) := rfl

theorem elements_makeListWithTail :
    (makeListWithTail vs tail s).1.elements = vs ++ tail.elements := by
  induction vs with
  | nil => rfl
  | cons v vs ih => rw [makeListWithTail_cons, Value.elements_pair, ih, List.cons_append]

theorem last_makeListWithTail : (makeListWithTail vs tail s).1.last = tail.last := by
  induction vs with
  | nil => rfl
  | cons v vs ih => rw [makeListWithTail_cons, Value.last_pair, ih]

/-- A list that ends as another list does has the elements it was made of. -/
theorem makeListWithTail_last (list : Value) :
    (makeListWithTail vs list.last s).1.elements = vs ∧
      (makeListWithTail vs list.last s).1.last = list.last := by
  have hpair := list.isPair_last
  rw [elements_makeListWithTail, last_makeListWithTail, Value.elements_of_isPair_eq_false hpair,
    Value.last_of_isPair_eq_false hpair, List.append_nil]
  exact ⟨rfl, rfl⟩

end State

namespace Evaluator

/-- The expressions have these values, each in the state that the one before it left. -/
inductive InTurn (ev : Evaluation) (env : EnvId) :
    List Value → State → List Value → State → Prop where
  | nil {s} : InTurn ev env [] s [] s
  | cons {expr v es vs s t u} (hfirst : ev expr env s = some (.ok v, t))
      (hrest : InTurn ev env es t vs u) : InTurn ev env (expr :: es) s (v :: vs) u

/-- One of the expressions fails, after those before it had values; those after it play no part. -/
def FailsInTurn (ev : Evaluation) (env : EnvId) (es : List Value) (s : State) (e : Error)
    (t : State) : Prop :=
  ∃ before expr after vs u, es = before ++ expr :: after ∧ InTurn ev env before s vs u ∧
    ev expr env u = some (.error e, t)

variable {ev : Evaluation} {env : EnvId} {s t : State} {list : Value} {es vs : List Value}
  {r : Except Error Value} {e : Error}

theorem InTurn.length_eq (h : InTurn ev env es s vs t) : vs.length = es.length := by
  induction h with
  | nil => rfl
  | cons _ _ ih => rw [List.length_cons, ih, List.length_cons]

theorem failsInTurn_nil : ¬ FailsInTurn ev env [] s e t := by
  rintro ⟨before, expr, after, _, _, hsplit, _⟩
  cases before <;> cases hsplit

/-- The first expression fails, or has a value and one of the others fails. -/
theorem failsInTurn_cons_iff {expr : Value} :
    FailsInTurn ev env (expr :: es) s e t ↔
      ev expr env s = some (.error e, t) ∨
        ∃ v u, ev expr env s = some (.ok v, u) ∧ FailsInTurn ev env es u e t := by
  constructor
  · rintro ⟨before, expr', after, vs, u, hsplit, hbefore, hfails⟩
    cases hbefore with
    | nil =>
        cases hsplit
        exact .inl hfails
    | cons hfirst hrest =>
        cases hsplit
        exact .inr ⟨_, _, hfirst, _, expr', after, _, u, rfl, hrest, hfails⟩
  · rintro (hfails | ⟨v, u, hfirst, before, expr', after, vs, w, rfl, hbefore, hfails⟩)
    · exact ⟨[], expr, es, [], s, rfl, .nil, hfails⟩
    · exact ⟨expr :: before, expr', after, v :: vs, w, rfl, .cons hfirst hbefore, hfails⟩

/-- The evaluation of operands ends where all have had their turn, or with the first failure.  By
induction on the chain of pairs. -/
theorem evlis_eq_some_iff :
    evlis ev list env s = some (r, t) ↔
      (∃ vs u, InTurn ev env list.elements s vs u ∧
        r = .ok (State.makeListWithTail vs list.last u).1 ∧
        t = (State.makeListWithTail vs list.last u).2) ∨
      ∃ e, r = .error e ∧ FailsInTurn ev env list.elements s e t := by
  induction list generalizing s r t with
  | pair m first rest _ ih =>
      rw [evlis_pair, bind_eq_some_iff, Value.elements_pair, Value.last_pair]
      simp only [bind_eq_some_iff, ih, make_apply, Option.some.injEq, Prod.mk.injEq]
      constructor
      · rintro (⟨e, hfails, rfl⟩ | ⟨v, w, hfirst, hrest⟩)
        · exact .inr ⟨e, rfl, failsInTurn_cons_iff.mpr (.inl hfails)⟩
        rcases hrest with ⟨e, hrest, rfl⟩ | ⟨list, w', hrest, rfl, rfl⟩
        · rcases hrest with ⟨vs, u, _, hresult, _⟩ | ⟨e', heq, hfails⟩
          · cases hresult
          · cases heq
            exact .inr ⟨e, rfl, failsInTurn_cons_iff.mpr (.inr ⟨v, w, hfirst, hfails⟩)⟩
        · rcases hrest with ⟨vs, u, hturn, hresult, rfl⟩ | ⟨e', heq, _⟩
          · cases hresult
            exact .inl ⟨v :: vs, u, .cons hfirst hturn, rfl, rfl⟩
          · cases heq
      · rintro (⟨vs, u, hturn, rfl, rfl⟩ | ⟨e, rfl, hfails⟩)
        · cases hturn with
          | cons hfirst hturn =>
              exact .inr ⟨_, _, hfirst, .inr ⟨_, _, .inl ⟨_, u, hturn, rfl, rfl⟩, rfl, rfl⟩⟩
        · rcases failsInTurn_cons_iff.mp hfails with hfails | ⟨v, u, hfirst, hfails⟩
          · exact .inl ⟨e, hfails, rfl⟩
          · exact .inr ⟨v, u, hfirst, .inl ⟨e, .inr ⟨e, rfl, hfails⟩, rfl⟩⟩
  | _ =>
      rw [evlis_of_isPair_eq_false rfl]
      constructor
      · intro h
        cases h
        exact .inl ⟨[], s, .nil, rfl, rfl⟩
      · rintro (⟨vs, u, hturn, rfl, rfl⟩ | ⟨e, _, hfails⟩)
        · cases hturn
          rfl
        · exact absurd hfails failsInTurn_nil

/-- The values of the operands of a combination are a proper list, as long as they are. -/
theorem isList_of_evlis {args : Value} (hlist : list.isList = true)
    (h : evlis ev list env s = some (.ok args, t)) :
    args.isList = true ∧ args.elements.length = list.elements.length := by
  rcases evlis_eq_some_iff.mp h with ⟨vs, u, hturn, hargs, _⟩ | ⟨e, hargs, _⟩
  · cases hargs
    obtain ⟨helements, hlast⟩ := State.makeListWithTail_last vs u list
    exact ⟨by rw [Value.isList_eq_isNil_last, hlast, ← Value.isList_eq_isNil_last, hlist],
      by rw [helements, hturn.length_eq]⟩
  · cases hargs

end Evaluator

end TinyLisp
