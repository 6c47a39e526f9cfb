import TinyLisp.Interpreter

/-!
Runs seen from outside: what each primitive run answers at a state, what the sequel of a run
answers, and two ways to compare.  A run keeps a relation when every result, errors included, leaves
a related state; one run covers another when it answers whatever the other one answers.
-/

namespace TinyLisp

open Evaluator

variable {α β : Type}

/-- The state after one more object was made. -/
def State.marked (s : State) : State :=
  { s with nextMark := s.nextMark + 1 }

namespace Run

/-! ### Answers of the primitive runs -/

@[simp] theorem pure_apply (a : α) (s : State) : (pure a : Run α) s = some (.ok a, s) := rfl

@[simp] theorem throw_apply (e : Error) (s : State) :
    (throw e : Run α) s = some (.error e, s) := rfl

@[simp] theorem get_apply (s : State) : (get : Run State) s = some (.ok s, s) := rfl

@[simp] theorem modify_apply (f : State → State) (s : State) :
    (modify f : Run PUnit) s = some (.ok ⟨⟩, f s) := rfl

@[simp] theorem perform_apply (action : Action α) (s : State) :
    perform action s = some (action s) := rfl

@[simp] theorem trace_apply (e : Event) (s : State) :
    Evaluator.trace e s = some (.ok (), s.trace e) := rfl

@[simp] theorem make_apply (build : Mark → Value) (s : State) :
    Evaluator.make build s =
      some (.ok (build ⟨s.nextMark⟩), s.marked) := rfl

@[simp] theorem exhausted_apply (s : State) : (exhausted : Run α) s = none := rfl

/-- A sequel sees the value and the state of what it follows, and never starts after an error. -/
@[simp] theorem bind_apply (m : Run α) (f : α → Run β) (s : State) :
    (m >>= f) s =
      match m s with
      | none => none
      | some (.error e, t) => some (.error e, t)
      | some (.ok a, t) => f a t := by
  change (m s).bind _ = _
  cases m s with
  | none => rfl
  | some answer =>
      obtain ⟨result, t⟩ := answer
      cases result <;> rfl

/-- What a sequence answers comes from an error of its first part or from its second part. -/
theorem bind_eq_some_iff {m : Run α} {f : α → Run β} {s t : State} {r : Except Error β} :
    (m >>= f) s = some (r, t) ↔
      (∃ e, m s = some (.error e, t) ∧ r = .error e) ∨
        ∃ a u, m s = some (.ok a, u) ∧ f a u = some (r, t) := by
  rw [bind_apply]
  cases m s with
  | none => simp
  | some answer =>
      obtain ⟨result, u⟩ := answer
      cases result with
      | error e =>
          simp only [Option.some.injEq, Prod.mk.injEq, Except.error.injEq]
          constructor
          · rintro ⟨rfl, rfl⟩
            exact Or.inl ⟨e, ⟨rfl, rfl⟩, rfl⟩
          · rintro (⟨e', ⟨rfl, rfl⟩, rfl⟩ | ⟨a, u', ⟨⟨⟩, _⟩, _⟩)
            exact ⟨rfl, rfl⟩
      | ok a =>
          simp only [Option.some.injEq, Prod.mk.injEq, Except.ok.injEq]
          constructor
          · intro h
            exact Or.inr ⟨a, u, ⟨rfl, rfl⟩, h⟩
          · rintro (⟨e, ⟨⟨⟩, _⟩, _⟩ | ⟨a', u', ⟨rfl, rfl⟩, h⟩)
            exact h

/-! ### Relations that a run keeps -/

/-- Every result of a run leaves a state related to the state before it. -/
def Keeps (R : State → State → Prop) (m : Run α) : Prop :=
  ∀ s r t, m s = some (r, t) → R s t

section Keeps

variable {R : State → State → Prop}

theorem keeps_of_apply (hrefl : ∀ s, R s s) {m : Run α}
    (h : ∀ s, ∃ r, m s = some (r, s)) : Keeps R m := by
  intro s r t hrun
  obtain ⟨r', hs⟩ := h s
  rw [hs] at hrun
  cases hrun
  exact hrefl s

theorem keeps_perform {action : Action α} (h : ∀ s, R s (action s).2) :
    Keeps R (perform action) := by
  intro s r t hrun
  simp only [perform_apply, Option.some.injEq] at hrun
  have hs := h s
  rw [hrun] at hs
  exact hs

theorem keeps_exhausted : Keeps R (exhausted : Run α) := by
  intro s r t hrun
  simp at hrun

theorem Keeps.bind (htrans : ∀ s t u, R s t → R t u → R s u) {m : Run α} {f : α → Run β}
    (hm : Keeps R m) (hf : ∀ a, Keeps R (f a)) : Keeps R (m >>= f) := by
  intro s r t hrun
  rcases bind_eq_some_iff.mp hrun with ⟨e, hfirst, _⟩ | ⟨a, u, hfirst, hsecond⟩
  · exact hm s _ t hfirst
  · exact htrans s u t (hm s _ u hfirst) (hf a u r t hsecond)

end Keeps

/-! ### Runs that cover runs -/

/-- The second run answers whatever the first one answers. -/
def CoveredBy (m n : Run α) : Prop :=
  ∀ s answer, m s = some answer → n s = some answer

theorem CoveredBy.refl (m : Run α) : CoveredBy m m :=
  fun _ _ h => h

theorem coveredBy_exhausted (n : Run α) : CoveredBy exhausted n := by
  intro s answer h
  simp at h

/-- Sequences are covered part by part. -/
theorem CoveredBy.bind {m n : Run α} {f g : α → Run β} (hm : CoveredBy m n)
    (hf : ∀ a, CoveredBy (f a) (g a)) : CoveredBy (m >>= f) (n >>= g) := by
  rintro s ⟨r, t⟩ hrun
  rw [bind_eq_some_iff] at hrun ⊢
  rcases hrun with ⟨e, hfirst, rfl⟩ | ⟨a, u, hfirst, hsecond⟩
  · exact Or.inl ⟨e, hm s _ hfirst, rfl⟩
  · exact Or.inr ⟨a, u, hm s _ hfirst, hf a u _ hsecond⟩

end Run

namespace Evaluator

/-- A bound name is refused at once; a free one waits for its value. -/
theorem define_eq (ev : Evaluation) (x : String) (expr : Value) (env : EnvId) :
    define ev x expr env = (do
      if ((← get).bindings env).contains x then throw (.redefinition x)
      else
        let v ← ev expr env
        perform (State.define env x v)
        make Value.unspecified) := rfl

/-- A name can be given a value exactly as long as it is free. -/
theorem define_apply (env : EnvId) (x : String) (v : Value) (s : State) :
    State.define env x v s =
      if (s.bindings env).contains x then (.error (.redefinition x), s)
      else (.ok (), s.bind env x v) := by
  change (if (s.bindings env).contains x = true then _ else _ : ExceptT Error (StateM State) Unit)
    s = _
  split <;> rfl

end Evaluator

namespace Interpreter

/-- What the evaluation of each datum preserves of the values so far and of the state, a run does. -/
theorem runFrom_preserves {i : Interpreter} {P : List Value → State → Prop}
    (hdatum : ∀ d vs u r w, P vs u → i.evaluateDatum d u = some (r, w) →
      P (r.toOption.toList ++ vs) w)
    {rounds : Nat} {input : Input} {seen : List Value} {s t : State} {report : Report}
    (h : i.runFrom rounds input seen s = some (report, t)) (hs : P seen s) :
    P report.values.reverse t := by
  induction rounds generalizing input seen s with
  | zero => cases h
  | succ rounds ih =>
      rw [runFrom] at h
      split at h
      · cases h
        rwa [List.reverse_reverse]
      · cases h
        rwa [List.reverse_reverse]
      · next d input' _ =>
          split at h
          · cases h
          · next e u hrun =>
              cases h
              rw [List.reverse_reverse]
              exact hdatum d seen s (.error e) _ hs hrun
          · next v u hrun => exact ih h (hdatum d seen s (.ok v) u hs hrun)

end Interpreter

end TinyLisp
