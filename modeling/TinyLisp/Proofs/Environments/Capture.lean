import TinyLisp.Proofs.Environments.Closures

/-!
Lexical capture.  Main statement: `captured_bindings_stay`, a lambda keeps for good the bindings there
were where it was made, and its body sees them under its argument and over what its caller sees.
-/

namespace TinyLisp

open Evaluator
open Relation (ReflTransGen)

/-- Halves of pairs and bodies of lambdas lead from the first value to the second. -/
inductive Value.HasPart : Value → Value → Prop where
  | refl (v) : HasPart v v
  | first {m first rest v} (h : HasPart first v) : HasPart (.pair m first rest) v
  | rest {m first rest v} (h : HasPart rest v) : HasPart (.pair m first rest) v
  | body {m closure formal body v} (h : HasPart body v) :
      HasPart (.lambda m closure formal body) v

theorem Value.Discreet.of_hasPart {closures : Set EnvId} {size : Nat} {v w : Value}
    (hv : v.Discreet closures size) (h : v.HasPart w) : w.Discreet closures size := by
  induction h with
  | refl => exact hv
  | first _ ih => exact ih hv.1
  | rest _ ih => exact ih hv.2
  | body _ ih => exact ih hv.2

namespace Situation

/-- A value that is part of one at hand or of one that some environment binds. -/
def Contains (σ : Situation) (v : Value) : Prop :=
  (∃ w ∈ σ.values, w.HasPart v) ∨ ∃ env x w, σ.state.lookup env x = some w ∧ w.HasPart v

variable {closures : Set EnvId} {σ τ υ : Situation}

theorem Discreet.contains (hσ : σ.Discreet closures) {v : Value} (h : σ.Contains v) :
    v.Discreet closures σ.state.environments.size := by
  rcases h with ⟨w, hw, hpart⟩ | ⟨env, x, w, hw, hpart⟩
  · refine Value.Discreet.of_hasPart ?_ hpart
    rcases List.mem_append.mp hw with hheld | hwork
    · exact hσ.held w hheld
    · rcases List.mem_append.mp hwork with hcontrol | hframes
      · exact control_values_discreet hσ.control w hcontrol
      · obtain ⟨f, hf, hw⟩ := List.mem_flatMap.mp hframes
        exact (hσ.frames f hf).1 w hw
  · exact (hσ.state.bound env x w hw).of_hasPart hpart

theorem Discreet.running (hσ : σ.Discreet closures) {env : EnvId} (h : env ∈ σ.running) :
    env ∉ closures := by
  rcases List.mem_append.mp h with hcontrol | hframes
  · have hdiscreet := hσ.control
    cases hc : σ.moment.control with
    | task task =>
        rw [hc] at hcontrol hdiscreet
        obtain rfl := List.mem_singleton.mp hcontrol
        exact hdiscreet.2.not_mem
    | answer r =>
        rw [hc] at hcontrol
        cases hcontrol
  · obtain ⟨f, hf, henv⟩ := List.mem_filterMap.mp hframes
    exact ((hσ.frames f hf).2 env henv).not_mem

/-- What a `lambda` form answers: a lambda whose closure is a copy of the bindings where it was
made. -/
theorem lambda_answer {operands body : Value} {env closure : EnvId} {m : Mark} {formal : Formal}
    (hform : σ.moment.control = .task (.form .lambda operands env)) (h : Next σ τ)
    (hanswer : τ.moment.control = .answer (.ok (.lambda m closure formal body))) :
    τ.state.bindings closure = σ.state.bindings env := by
  cases h with
  | begins => cases hform
  | work h =>
      cases h with
      | resumes h => cases hform
      | enters h =>
          cases hform
          cases h
      | ends h =>
          cases hform
          cases h with
          | lambda =>
              cases hanswer
              change (State.grown _ _).bindings _ = _
              rw [State.bindings_grown, if_pos rfl]
          | _ => cases hanswer

end Situation

open Situation in
/-- A lambda made by a `lambda` form in an environment, then anything at all: its closure has exactly
the bindings that the environment had, no code runs in it and no value leads to it.  So whoever
applies the lambda to arguments it accepts, its body starts in a new environment where a name means
the argument, or else what it meant where the lambda was made, or else what it means to the caller. -/
theorem captured_bindings_stay {σ τ υ : Situation} {operands body : Value} {env closure : EnvId}
    {m : Mark} {formal : Formal} (hreachable : Reachable σ)
    (hform : σ.moment.control = .task (.form .lambda operands env)) (hmade : Next σ τ)
    (hanswer : τ.moment.control = .answer (.ok (.lambda m closure formal body)))
    (hlater : ReflTransGen Next τ υ) :
    υ.state.bindings closure = σ.state.bindings env ∧
    closure ∉ υ.running ∧
    (∀ mark, ¬ υ.Contains (.environment mark closure)) ∧
    ∀ ev caller args own, formal.accept args = .ok own →
      ∃ inner t,
        apply ev (.lambda m closure formal body) args caller υ.state =
          some (.ok (.pending body inner), t) ∧
        inner.index = υ.state.environments.size ∧
        ∀ x, t.lookup inner x = (own.toList.lookup x).or
          (((σ.state.bindings env).find? x).or (υ.state.lookup caller x)) := by
  obtain ⟨before, hσ⟩ := reachable_discreet hreachable
  obtain ⟨closures, _, hτ⟩ := next_discreet hmade hσ
  obtain ⟨later, hseals, hυ⟩ := follows_discreet hlater hτ
  have hclosure : closure ∈ closures := by
    have hcontrol := hτ.control
    rw [hanswer] at hcontrol
    exact (hcontrol _ rfl).1
  have hbindings : υ.state.bindings closure = σ.state.bindings env := by
    rw [hseals.bindings_eq closure hclosure, lambda_answer hform hmade hanswer]
  refine ⟨hbindings, ?_, ?_, ?_⟩
  · intro hrunning
    exact hυ.running hrunning (hseals.subset hclosure)
  · intro mark hcontains
    have hopen : closure.Open later υ.state.environments.size := hυ.contains hcontains
    exact hopen.not_mem (hseals.subset hclosure)
  · intro ev caller args own hargs
    refine ⟨_, _, apply_lambda hargs, rfl, fun x => ?_⟩
    rw [State.lookup, State.bindings_grown, if_pos (by simp), find?_callBindings, hbindings]
    rfl

/-- The operands of `(lambda (x) y)`. -/
def freeInBody : Value :=
  .pair ⟨0⟩ (.pair ⟨0⟩ (.symbol ⟨0⟩ "x") (.nil ⟨0⟩)) (.pair ⟨0⟩ (.symbol ⟨0⟩ "y") (.nil ⟨0⟩))

open Situation in
/-- `(lambda (x) y)`, and then `(define y 5)` where it was made: the closure does not have `y` even
then, and the body sees the one of its caller. -/
theorem captured_bindings_stay_definition :
    ∃ σ τ υ m, Reachable σ ∧ σ.moment.control = .task (.form .lambda freeInBody ⟨0⟩) ∧
      Next σ τ ∧
      τ.moment.control = .answer (.ok (.lambda m ⟨1⟩ (.single "x") (.symbol ⟨0⟩ "y"))) ∧
      ReflTransGen Next τ υ ∧
      υ.state.lookup ⟨0⟩ "y" = some (.number ⟨0⟩ 5) ∧ υ.state.lookup ⟨1⟩ "y" = none ∧
      ∃ inner t,
        apply (eval 0 0) (.lambda m ⟨1⟩ (.single "x") (.symbol ⟨0⟩ "y"))
            (.pair ⟨0⟩ (.nil ⟨0⟩) (.nil ⟨0⟩)) ⟨0⟩ υ.state =
          some (.ok (.pending (.symbol ⟨0⟩ "y") inner), t) ∧
        t.lookup inner "y" = some (.number ⟨0⟩ 5) := by
  obtain ⟨b, s, hstart, henvironments, _, hb⟩ := start_apply .empty false
  have hfree {x : String} (hx : ∀ p : Native, p.name ≠ x) : s.lookup ⟨0⟩ x = none := by
    rw [State.lookup, State.bindings, henvironments]
    exact hb.find?_eq_none hx
  have hreaches : ReflTransGen Next
      ⟨[], ⟨.answer (.ok (.environment ⟨0⟩ ⟨0⟩)), [], s⟩⟩
      ⟨[.environment ⟨0⟩ ⟨0⟩], ⟨.task (.form .lambda freeInBody ⟨0⟩), [],
        s.trace (.evaluating (.pair ⟨0⟩ (.symbol ⟨0⟩ Keyword.lambda.name) freeInBody))⟩⟩ :=
    form_follows List.mem_cons_self
      (.pair (.pair (.symbol _ _) (.plain rfl)) (.pair (.symbol _ _) (.plain rfl))) rfl
      (hfree (Native.name_ne_keyword · .lambda))
  obtain ⟨u, hu, hsize, hfreeAtU⟩ : ∃ u, u = s.trace
      (.evaluating (.pair ⟨0⟩ (.symbol ⟨0⟩ Keyword.lambda.name) freeInBody)) ∧
      u.environments.size = 1 ∧
      ∀ x, (∀ p : Native, p.name ≠ x) → u.lookup ⟨0⟩ x = none :=
    ⟨_, rfl, by simp [henvironments], fun x hx => by simpa using hfree hx⟩
  rw [← hu, ← hstart] at hreaches
  have hmade : Next ⟨[.environment ⟨0⟩ ⟨0⟩], ⟨.task (.form .lambda freeInBody ⟨0⟩), [], u⟩⟩
      ⟨[.environment ⟨0⟩ ⟨0⟩],
        ⟨.answer (.ok (.lambda ⟨u.nextMark⟩ ⟨u.environments.size⟩ (.single "x") (.symbol ⟨0⟩ "y"))),
          [], (u.grown (u.bindings ⟨0⟩)).marked⟩⟩ :=
    .work (.ends (.lambda rfl rfl))
  rw [hsize] at hmade
  have hgrown : (u.grown (u.bindings ⟨0⟩)).marked.bindings ⟨0⟩ = u.bindings ⟨0⟩ := by
    simp [State.bindings_grown, hsize]
  have hnone : (u.bindings ⟨0⟩).find? "y" = none :=
    hfreeAtU "y" (by intro p; cases p <;> decide)
  have hroot : .environment ⟨0⟩ ⟨0⟩ ∈ (Control.answer (.ok (.lambda ⟨u.nextMark⟩ ⟨1⟩ (.single "x")
      (.symbol ⟨0⟩ "y")))).values ++ [.environment ⟨0⟩ ⟨0⟩] :=
    List.mem_cons_of_mem _ List.mem_cons_self
  have hkeyword : (u.grown (u.bindings ⟨0⟩)).marked.lookup ⟨0⟩ Keyword.define.name = none := by
    rw [State.lookup, hgrown]
    exact hfreeAtU _ (Native.name_ne_keyword · .define)
  obtain ⟨held, last, w, hlater, hw⟩ := define_follows (v := .number ⟨0⟩ 5) hroot rfl hkeyword
    (by rw [hgrown, Bindings.contains, hnone]; rfl)
  have hfive : w.lookup ⟨0⟩ "y" = some (.number ⟨0⟩ 5) := by
    rw [State.lookup, State.bindings, hw, ← State.bindings, ← State.lookup, State.lookup_bind]
    · rfl
    · simp
  obtain ⟨hbindings, _, _, happly⟩ :=
    captured_bindings_stay ⟨.empty, false, hreaches⟩ rfl hmade rfl hlater
  obtain ⟨inner, t, hrun, _, hseen⟩ := happly (eval 0 0) ⟨0⟩
    (.pair ⟨0⟩ (.nil ⟨0⟩) (.nil ⟨0⟩)) (some ("x", .nil ⟨0⟩)) rfl
  refine ⟨_, _, _, _, ⟨.empty, false, hreaches⟩, rfl, hmade, rfl, hlater, hfive, ?_, inner, t,
    hrun, ?_⟩
  · rw [State.lookup, hbindings]
    exact hnone
  · rw [hseen, hnone, hfive]
    rfl

end TinyLisp
