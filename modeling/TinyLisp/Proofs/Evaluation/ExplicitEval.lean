import TinyLisp.Proofs.Evaluation.Budget
import TinyLisp.Proofs.Evaluation.Freshness

/-!
Evaluation that a program asks for.  To evaluate `(eval (quote e) (current-environment))` is to
evaluate `e`: three objects are made first, the environment and the two pairs of the argument list,
and tracing is off afterwards.  Main statement: `explicit_eval_transparent`.
-/

namespace TinyLisp

open Evaluator Run

namespace Value

/-- A combination of a name with operands, whatever objects it is made of. -/
def Combines (name : String) (operands : List Value) (v : Value) : Prop :=
  ∃ m m' rest, v = .pair m (.symbol m' name) rest ∧ rest.toList? = some operands

/-- The expression that asks for the evaluation of another one where it is evaluated itself. -/
def AsksFor (v expr : Value) : Prop :=
  ∃ quoted here, v.Combines Native.eval.name [quoted, here] ∧
    quoted.Combines Keyword.quote.name [expr] ∧ here.Combines Keyword.currentEnvironment.name []

variable {v w : Value} {vs : List Value}

theorem eq_pair_of_toList? (h : v.toList? = some (w :: vs)) :
    ∃ m rest, v = .pair m w rest ∧ rest.toList? = some vs := by
  obtain ⟨hlist, helements⟩ := toList?_eq_some_iff.mp h
  cases v with
  | pair m first rest =>
      obtain ⟨rfl, hrest⟩ := List.cons.inj helements
      exact ⟨m, rest, rfl, toList?_eq_some_iff.mpr ⟨hlist, hrest⟩⟩
  | _ => cases helements

theorem eq_nil_of_toList? (h : v.toList? = some []) : ∃ m, v = .nil m := by
  obtain ⟨hlist, helements⟩ := toList?_eq_some_iff.mp h
  cases v with
  | nil m => exact ⟨m, rfl⟩
  | pair m first rest => cases helements
  | _ => cases hlist

end Value

theorem State.trace_of_tracing_eq_false {s : State} (h : s.tracing = false) (e : Event) :
    s.trace e = s :=
  if_neg (by simp [h])

theorem Procedures.two_of_toList? {p : Native} {args v w : Value}
    (h : args.toList? = some [v, w]) : two p args = .ok (v, w) := by
  rw [two, exactly, arguments, h]
  rfl

namespace Evaluator

variable {s : State} {env : EnvId} {m : Mark} {expr quoted here : Value} {depth rounds : Nat}

section Operands

variable (htracing : s.tracing = false)

include htracing

/-- A quoted expression is the value of its quotation. -/
theorem eval_quote (hfree : s.lookup env Keyword.quote.name = none)
    (h : quoted.Combines Keyword.quote.name [expr]) :
    eval (depth + 1) rounds quoted env s = some (.ok expr, s) := by
  obtain ⟨m, m', operands, rfl, hoperands⟩ := h
  obtain ⟨hlist, helements⟩ := Value.toList?_eq_some_iff.mp hoperands
  rw [eval, bind_apply, step_keyword hlist hfree (Keyword.ofName?_name .quote),
    State.trace_of_tracing_eq_false htracing, form_quote helements]
  simp

theorem eval_currentEnvironment (hfree : s.lookup env Keyword.currentEnvironment.name = none)
    (h : here.Combines Keyword.currentEnvironment.name []) :
    eval (depth + 1) rounds here env s =
      some (.ok (.environment ⟨s.nextMark⟩ env), s.marked) := by
  obtain ⟨m, m', operands, rfl, hoperands⟩ := h
  obtain ⟨hlist, helements⟩ := Value.toList?_eq_some_iff.mp hoperands
  rw [eval, bind_apply, step_keyword hlist hfree (Keyword.ofName?_name .currentEnvironment),
    State.trace_of_tracing_eq_false htracing, form_currentEnvironment helements]
  simp

/-- The operands of an explicit evaluation come to the expression and the environment; three objects
are made for it. -/
theorem evlis_explicit {operands : Value} (hquote : s.lookup env Keyword.quote.name = none)
    (hhere : s.lookup env Keyword.currentEnvironment.name = none)
    (hoperands : operands.toList? = some [quoted, here])
    (hquoted : quoted.Combines Keyword.quote.name [expr])
    (hcurrent : here.Combines Keyword.currentEnvironment.name []) (depth rounds : Nat) :
    ∃ m, evlis (eval (depth + 1) rounds) operands env s =
      some (.ok (.pair ⟨s.nextMark + 2⟩ expr
          (.pair ⟨s.nextMark + 1⟩ (.environment ⟨s.nextMark⟩ env) (.nil m))),
        { s with nextMark := s.nextMark + 3 }) := by
  obtain ⟨_, rest, rfl, hrest⟩ := Value.eq_pair_of_toList? hoperands
  obtain ⟨_, last, rfl, hlast⟩ := Value.eq_pair_of_toList? hrest
  obtain ⟨m, rfl⟩ := Value.eq_nil_of_toList? hlast
  refine ⟨m, ?_⟩
  simp only [evlis, bind_apply, pure_apply, make_apply, eval_quote htracing hquote hquoted,
    eval_currentEnvironment htracing hhere hcurrent]
  rfl

/-- Where tracing is off already, it only has to be turned off afterwards. -/
theorem untraced_of_tracing_eq_false (ev : Evaluation) :
    untraced ev expr env s = (ev expr env s).map fun (r, t) => (r, { t with tracing := false }) := by
  have hoff : { s with tracing := false } = s := by rw [← htracing]
  rw [untraced, hoff, htracing]

/-- The built-in `eval` applied to an expression and an environment evaluates one in the other. -/
theorem apply_eval {args : Value} {inner : EnvId} {m' : Mark}
    (hargs : args.toList? = some [expr, .environment m' inner]) (ev : Evaluation) :
    apply ev (.native m .eval) args env s =
      (untraced ev expr inner >>= fun v => pure (Step.done v)) s := by
  have hcall : Procedures.call .eval args s = (.ok (.evaluation expr inner), s) := by
    simp only [Procedures.call, Procedures.eval, Procedures.two_of_toList? hargs]
    rfl
  rw [apply_native, State.trace_of_tracing_eq_false htracing, hcall]

end Operands

/-- What the built-in `eval` is asked for is evaluated with the three marks given out that its
argument list takes. -/
theorem eval_explicit {v : Value} (htracing : s.tracing = false)
    (heval : s.lookup env Native.eval.name = some (.native m .eval))
    (hquote : s.lookup env Keyword.quote.name = none)
    (hhere : s.lookup env Keyword.currentEnvironment.name = none) (hv : v.AsksFor expr) :
    eval (depth + 2) rounds v env s =
      (eval (depth + 1) rounds expr env { s with nextMark := s.nextMark + 3 }).map
        fun (r, t) => (r, { t with tracing := false }) := by
  obtain ⟨quoted, here, ⟨m₁, m₂, operands, rfl, hoperands⟩, hquoted, hcurrent⟩ := hv
  obtain ⟨m₃, hargs⟩ :=
    evlis_explicit htracing hquote hhere hoperands hquoted hcurrent depth rounds
  have hlist := (Value.toList?_eq_some_iff.mp hoperands).1
  let later : State := { s with nextMark := s.nextMark + 3 }
  have hlater : later.tracing = false := htracing
  rw [eval, bind_apply, step_named hlist heval, State.trace_of_tracing_eq_false htracing, bind_apply,
    hargs]
  dsimp only
  rw [apply_eval hlater rfl, bind_apply, untraced_of_tracing_eq_false hlater]
  rcases eval (depth + 1) rounds expr env later with _ | ⟨_ | v, t⟩
  · rfl
  · rfl
  · simp

end Evaluator

open Evaluator in
/-- Where tracing is off, `eval` is the built-in procedure and `quote` and `current-environment` are
special forms, asking for an evaluation is evaluating.  It comes to the same value or error and leaves
the same environments, ports, files, output and reports, whatever the expression does.  Only marks
given out on the way are others, for three go to the argument list, and tracing is off afterwards even
if the expression turned it on.

All objects at hand were made: it is so where programs start and where evaluation leads
(`run_made`, `eval_made`). -/
theorem explicit_eval_transparent {s : State} {env : EnvId} {m : Mark} {v expr : Value}
    (htracing : s.tracing = false) (hs : s.Made) (hexpr : expr.Made s.nextMark)
    (heval : s.lookup env Native.eval.name = some (.native m .eval))
    (hquote : s.lookup env Keyword.quote.name = none)
    (hhere : s.lookup env Keyword.currentEnvironment.name = none) (hv : v.AsksFor expr)
    (r : Except Error Value) (t : State) :
    (∃ depth rounds, eval depth rounds v env s = some (r, t)) ↔
      ∃ r' t', (∃ depth rounds, eval depth rounds expr env s = some (r', t')) ∧
        r = r'.map (Value.rename (Renaming.delay s.nextMark 3).map) ∧
        t = { t'.rename (.delay s.nextMark 3) with tracing := false } := by
  have hexplicit (depth rounds : Nat) : eval (depth + 2) rounds v env s = _ :=
    eval_explicit htracing heval hquote hhere hv
  simp only [eval_delayed hs hexpr, Option.map_map] at hexplicit
  constructor
  · rintro ⟨depth, rounds, hrun⟩
    have hdeeper := eval_covers (Nat.le_add_right depth 2) (Nat.le_refl rounds) v env s _ hrun
    rw [hexplicit, Option.map_eq_some_iff] at hdeeper
    obtain ⟨⟨r', t'⟩, hexpr', hanswer⟩ := hdeeper
    cases hanswer
    exact ⟨r', t', ⟨depth + 1, rounds, hexpr'⟩, rfl, rfl⟩
  · rintro ⟨r', t', ⟨depth, rounds, hrun⟩, rfl, rfl⟩
    have hdeeper := eval_covers (Nat.le_add_right depth 1) (Nat.le_refl rounds) expr env s _ hrun
    refine ⟨depth + 2, rounds, ?_⟩
    rw [hexplicit, hdeeper]
    rfl

open Evaluator in
/-- An expression that turns tracing on leaves it off where its evaluation is asked for. -/
theorem explicit_eval_transparent_toggle :
    let b := Bindings.empty.insert Native.eval.name (.native ⟨0⟩ .eval)
    let s := State.grown { State.initial .empty with nextMark := 16 } b
    let expr : Value := .pair ⟨1⟩ (.symbol ⟨2⟩ Keyword.toggleDebug.name) (.nil ⟨3⟩)
    let quoted : Value := .pair ⟨4⟩ (.symbol ⟨5⟩ Keyword.quote.name) (.pair ⟨6⟩ expr (.nil ⟨7⟩))
    let here : Value := .pair ⟨8⟩ (.symbol ⟨9⟩ Keyword.currentEnvironment.name) (.nil ⟨10⟩)
    let v : Value := .pair ⟨11⟩ (.symbol ⟨12⟩ Native.eval.name)
      (.pair ⟨13⟩ quoted (.pair ⟨14⟩ here (.nil ⟨15⟩)))
    s.tracing = false ∧ s.Made ∧ expr.Made s.nextMark ∧
      s.lookup ⟨0⟩ Native.eval.name = some (.native ⟨0⟩ .eval) ∧
      s.lookup ⟨0⟩ Keyword.quote.name = none ∧
      s.lookup ⟨0⟩ Keyword.currentEnvironment.name = none ∧ v.AsksFor expr ∧
      ∃ depth rounds, eval depth rounds v ⟨0⟩ s =
        some (.ok (.boolean ⟨19⟩ true), { s with nextMark := 20 }) := by
  intro b s expr quoted here v
  have hs : s.Made := by
    refine ((State.initial_made .empty).later (Nat.zero_le 16)).grown fun x w hw => ?_
    rw [Bindings.find?_insert] at hw
    split at hw
    · cases hw
      intro m hm
      rw [List.mem_singleton.mp hm]
      decide
    · cases hw
  have hexpr : expr.Made s.nextMark := by
    intro m hm
    have hsmall : ∀ m ∈ [Mark.mk 1, ⟨2⟩, ⟨3⟩], m.index < 16 := by decide
    exact hsmall m hm
  have heval : s.lookup ⟨0⟩ Native.eval.name = some (.native ⟨0⟩ .eval) := by decide
  have hquote : s.lookup ⟨0⟩ Keyword.quote.name = none := by decide
  have hhere : s.lookup ⟨0⟩ Keyword.currentEnvironment.name = none := by decide
  have hv : v.AsksFor expr := ⟨quoted, here, ⟨_, _, _, rfl, rfl⟩, ⟨_, _, _, rfl, rfl⟩,
    ⟨_, _, _, rfl, rfl⟩⟩
  have hrun : eval 1 0 expr ⟨0⟩ s =
      some (.ok (.boolean ⟨16⟩ true), { s with nextMark := 17, tracing := true }) := by
    rfl
  have hkept : s.environments = s.environments.map (Bindings.rename (Mark.delay s.nextMark 3)) :=
    congrArg State.environments
      (hs.rename_eq (ρ := .delay s.nextMark 3) fun m hm => if_pos hm).symm
  refine ⟨rfl, hs, hexpr, heval, hquote, hhere, hv, ?_⟩
  refine (explicit_eval_transparent rfl hs hexpr heval hquote hhere hv _ _).mpr
    ⟨_, _, ⟨1, 0, hrun⟩, rfl, ?_⟩
  exact congrArg (fun environments => { s with nextMark := 20, environments := environments }) hkept

end TinyLisp
