import TinyLisp.Proofs.Run

/-!
Budgets.  A larger budget never changes an answer, so what answers within two budgets answers the
same.  Main statements: `eval_covers` and `answer_unique`.
-/

namespace TinyLisp.Evaluator

open Run

/-- The second way to evaluate answers whatever the first one answers. -/
def Covers (larger smaller : Evaluation) : Prop :=
  ∀ expr env, CoveredBy (smaller expr env) (larger expr env)

section Covered

variable {ev ev' : Evaluation} (h : Covers ev' ev)

include h

theorem untraced_covered (expr : Value) (env : EnvId) :
    CoveredBy (untraced ev expr env) (untraced ev' expr env) := by
  intro s answer hrun
  simp only [untraced, Option.map_eq_some_iff] at hrun ⊢
  obtain ⟨inner, hinner, hanswer⟩ := hrun
  exact ⟨inner, h expr env _ inner hinner, hanswer⟩

theorem evlis_covered (list : Value) (env : EnvId) :
    CoveredBy (evlis ev list env) (evlis ev' list env) := by
  induction list with
  | pair m first rest _ ih =>
      rw [evlis, evlis]
      exact (h first env).bind fun v => ih.bind fun vs => .refl _
  | _ => exact .refl _

theorem apply_covered (procedure args : Value) (env : EnvId) :
    CoveredBy (apply ev procedure args env) (apply ev' procedure args env) := by
  unfold apply
  refine (CoveredBy.refl _).bind fun _ => ?_
  cases procedure with
  | native m p =>
      refine (CoveredBy.refl _).bind fun answer => ?_
      cases answer with
      | value v => exact .refl _
      | evaluation expr inner => exact (untraced_covered h expr inner).bind fun v => .refl _
  | _ => exact .refl _

theorem define_covered (x : String) (expr : Value) (env : EnvId) :
    CoveredBy (define ev x expr env) (define ev' x expr env) := by
  rw [define_eq, define_eq]
  refine (CoveredBy.refl _).bind fun s => ?_
  split
  · exact .refl _
  · exact (h expr env).bind fun v => .refl _

theorem form_covered (k : Keyword) (operands : Value) (env : EnvId) :
    CoveredBy (form ev k operands env) (form ev' k operands env) := by
  unfold form
  split
  · exact .refl _
  · exact .refl _
  · split
    · exact (define_covered h _ _ env).bind fun v => .refl _
    · exact .refl _
  · exact (h _ env).bind fun v => .refl _
  · exact (h _ env).bind fun v => .refl _
  · exact .refl _
  · exact .refl _
  · exact .refl _

theorem combination_covered (head operands : Value) (env : EnvId) :
    CoveredBy (combination ev head operands env) (combination ev' head operands env) := by
  unfold combination
  split
  · refine (CoveredBy.refl _).bind fun s => ?_
    split
    · exact (evlis_covered h operands env).bind fun args => apply_covered h _ args env
    · split
      · split
        · exact form_covered h _ operands env
        · exact .refl _
      · exact .refl _
  · refine (h head env).bind fun procedure => ?_
    exact (evlis_covered h operands env).bind fun args => apply_covered h procedure args env

theorem step_covered (expr : Value) (env : EnvId) :
    CoveredBy (step ev expr env) (step ev' expr env) := by
  unfold step
  refine (CoveredBy.refl _).bind fun _ => ?_
  split
  · exact .refl _
  · split
    · exact combination_covered h _ _ env
    · exact .refl _
  · exact .refl _

theorem drive_covered {rounds rounds' : Nat} (hrounds : rounds ≤ rounds') (st : Step) :
    CoveredBy (drive ev rounds st) (drive ev' rounds' st) := by
  induction rounds generalizing rounds' st with
  | zero =>
      cases st with
      | done v =>
          simp only [drive]
          exact .refl _
      | pending body env =>
          rw [drive]
          exact coveredBy_exhausted _
  | succ rounds ih =>
      obtain ⟨more, rfl⟩ : ∃ more, rounds' = more + 1 := ⟨rounds' - 1, by omega⟩
      cases st with
      | done v =>
          simp only [drive]
          exact .refl _
      | pending body env =>
          rw [drive, drive]
          exact (step_covered h body env).bind fun st => ih (by omega) st

end Covered

/-- A larger budget answers whatever a smaller one answers. -/
theorem eval_covers {depth depth' rounds rounds' : Nat} (hdepth : depth ≤ depth')
    (hrounds : rounds ≤ rounds') : Covers (eval depth' rounds') (eval depth rounds) := by
  induction depth generalizing depth' with
  | zero =>
      intro expr env
      rw [eval]
      exact coveredBy_exhausted _
  | succ depth ih =>
      obtain ⟨more, rfl⟩ : ∃ more, depth' = more + 1 := ⟨depth' - 1, by omega⟩
      have hcovers := ih (Nat.le_of_succ_le_succ hdepth)
      intro expr env
      rw [eval, eval]
      exact (step_covered hcovers expr env).bind fun st => drive_covered hcovers hrounds st

/-- What answers within a larger budget what it answers within a smaller one has one answer. -/
theorem answer_unique {α : Type} {run : Nat → Nat → Run α}
    (hcovered : ∀ {depth depth' rounds rounds' : Nat}, depth ≤ depth' → rounds ≤ rounds' →
      CoveredBy (run depth rounds) (run depth' rounds'))
    {depth depth' rounds rounds' : Nat} {s : State} {answer answer' : Except Error α × State}
    (h : run depth rounds s = some answer) (h' : run depth' rounds' s = some answer') :
    answer = answer' := by
  have hleft := hcovered (Nat.le_max_left depth depth') (Nat.le_max_left rounds rounds') s answer h
  have hright :=
    hcovered (Nat.le_max_right depth depth') (Nat.le_max_right rounds rounds') s answer' h'
  rw [hleft] at hright
  exact Option.some.inj hright

end TinyLisp.Evaluator
