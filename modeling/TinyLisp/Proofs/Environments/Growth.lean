import TinyLisp.Proofs.Evaluation.Kept
import TinyLisp.Proofs.Procedures.Confined

/-!
Environments only grow.  Main statement: `bindings_survive`, no evaluation and no program, however it
ends, takes an environment away or gives a bound name another value.
-/

namespace TinyLisp

open Evaluator

namespace State

/-- The second state has every environment of the first, with every binding it had. -/
structure Extends (s t : State) : Prop where
  size_le : s.environments.size ≤ t.environments.size
  lookup_eq : ∀ env x v, s.lookup env x = some v → t.lookup env x = some v

theorem Extends.refl (s : State) : Extends s s :=
  ⟨Nat.le_refl _, fun _ _ _ h => h⟩

theorem Extends.trans {s t u : State} (h : Extends s t) (h' : Extends t u) : Extends s u :=
  ⟨Nat.le_trans h.size_le h'.size_le,
    fun env x v hv => h'.lookup_eq env x v (h.lookup_eq env x v hv)⟩

/-- States with the same environments extend each other. -/
theorem extends_of_environments {s t : State} (h : t.environments = s.environments) :
    Extends s t := by
  refine ⟨Nat.le_of_eq (by rw [h]), fun env x v hv => ?_⟩
  rw [lookup, bindings] at hv ⊢
  rw [h]
  exact hv

/-- Only a place in the state has bindings. -/
theorem lt_of_lookup {s : State} {env : EnvId} {x : String} {v : Value}
    (h : s.lookup env x = some v) : env.index < s.environments.size := by
  refine Nat.lt_of_not_le fun hout => ?_
  rw [lookup, bindings, Array.getD_eq_getD_getElem?, Array.getElem?_eq_none hout] at h
  simp at h

@[simp] theorem size_bind (s : State) (env : EnvId) (x : String) (v : Value) :
    (s.bind env x v).environments.size = s.environments.size := by
  simp [bind, setBindings]

theorem extends_newEnvironment (b : Bindings) (s : State) :
    Extends s (newEnvironment b s).2 := by
  have hsize : (newEnvironment b s).2.environments.size = s.environments.size + 1 :=
    Array.size_push b
  refine ⟨by omega, fun env x v hv => ?_⟩
  have hlt := lt_of_lookup hv
  have hold := bindings_newEnvironment s b env (Nat.le_of_lt hlt)
  have hne : env ≠ ((newEnvironment b).run s).1 := by
    rintro rfl
    exact Nat.lt_irrefl _ hlt
  rw [if_neg hne] at hold
  rw [lookup] at hv ⊢
  rw [← hv, ← hold]
  rfl

/-- A name that was free in one environment is bound there, and nothing else changes. -/
theorem extends_bind {s : State} {env : EnvId} {x : String} (v : Value)
    (h : (s.bindings env).contains x = false) : Extends s (s.bind env x v) := by
  refine ⟨Nat.le_of_eq (size_bind s env x v).symm, fun other y w hw => ?_⟩
  by_cases hin : env.index < s.environments.size
  · rw [lookup_bind s env other x y v hin]
    have hother : ¬ (env = other ∧ y = x) := by
      rintro ⟨rfl, rfl⟩
      rw [lookup] at hw
      simp [Bindings.contains, hw] at h
    rw [if_neg hother]
    exact hw
  · rw [lookup, bind, bindings_setBindings, if_neg fun h => hin h.2]
    exact hw

theorem extends_steady : Steady Extends where
  refl := Extends.refl
  trans := fun _ _ _ => Extends.trans
  make := fun _ => extends_of_environments rfl
  report := fun _ _ => extends_of_environments rfl
  switch := fun _ _ => extends_of_environments rfl
  newEnvironment := extends_newEnvironment
  bind := fun _ _ v _ => extends_bind v
  call := by
    intro p args s
    have hcall : Confined (Answer.All fun _ => True) (Procedures.call p args) :=
      Procedures.call_confined ⟨fun _ _ => trivial, by simp⟩ p (fun _ _ _ => trivial) trivial
    exact extends_of_environments (hcall s).1.environments

end State

/-- Whatever is evaluated, applied or run, in whatever state, with whatever outcome: every
environment that was there is still there and every name bound in it has the same value. -/
theorem bindings_survive (limits : Limits) (s t : State) :
    (∀ expr env result,
      eval limits.depth limits.rounds expr env s = some (result, t) → s.Extends t) ∧
    (∀ rounds st result,
      drive (eval limits.depth limits.rounds) rounds st s = some (result, t) → s.Extends t) ∧
    (∀ list env result,
      evlis (eval limits.depth limits.rounds) list env s = some (result, t) → s.Extends t) ∧
    (∀ procedure args env result,
      apply (eval limits.depth limits.rounds) procedure args env s = some (result, t) →
        s.Extends t) ∧
    ∀ root rounds,
      let i : Interpreter := ⟨eval limits.depth limits.rounds, root, rounds⟩
      (∀ input report, i.run input s = some (report, t) → s.Extends t) ∧
      (∀ text result, i.evaluateText text s = some (result, t) → s.Extends t) ∧
      ∀ path result, i.load path s = some (result, t) → s.Extends t := by
  have hR := State.extends_steady
  have heval := eval_keeps hR limits.depth limits.rounds
  refine ⟨?_, ?_, ?_, ?_, ?_⟩
  · intro expr env result h
    exact heval expr env s result t h
  · intro rounds st result h
    exact drive_keeps hR heval rounds st s result t h
  · intro list env result h
    exact evlis_keeps hR heval list env s result t h
  · intro procedure args env result h
    exact apply_keeps hR heval procedure args env s result t h
  · intro root rounds i
    refine ⟨?_, ?_, ?_⟩
    · intro input report h
      exact Interpreter.run_keeps hR heval h
    · intro text result h
      exact Interpreter.evaluateInput_keeps hR heval _ s result t h
    · intro path result h
      exact Interpreter.load_keeps hR heval path s result t h

/-- A state whose only environment binds `x` to 5. -/
def State.fiveAtX : State :=
  { State.initial .empty with environments := #[Bindings.ofList [("x", .number ⟨0⟩ 5)]] }

/-- `(define y (define y x))`: the inner definition is made while the outer one waits. -/
def definitionInDefinition : Value :=
  let form (value : Value) : Value :=
    .pair ⟨1⟩ (.symbol ⟨2⟩ "define") (.pair ⟨3⟩ (.symbol ⟨4⟩ "y") (.pair ⟨5⟩ value (.nil ⟨6⟩)))
  form (form (.symbol ⟨7⟩ "x"))

/-- The outer definition fails, for the inner one has bound its name; `x` keeps its value. -/
theorem bindings_survive_inner_definition :
    let after := { State.fiveAtX.bind ⟨0⟩ "y" (.number ⟨0⟩ 5) with nextMark := 1 }
    eval 3 3 definitionInDefinition ⟨0⟩ State.fiveAtX =
        some (.error (.redefinition "y"), after) ∧
      State.fiveAtX.Extends after :=
  ⟨rfl, (bindings_survive ⟨3, 3⟩ State.fiveAtX _).1 definitionInDefinition ⟨0⟩ _ rfl⟩

end TinyLisp
