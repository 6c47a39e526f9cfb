import TinyLisp.Proofs.Objects.Places

/-!
Equality of what programs make.  `equal` tells lambdas and ports apart by being different objects,
`isAlike` by leading to different places; as every place has one object, it comes to the same.  Main
statement: `equal_iff_isAlike`.
-/

namespace TinyLisp

open Evaluator
open Relation (ReflTransGen)

/-- On values made of objects with places of their own, equality is having the same contents. -/
theorem Value.equal_iff_isAlike_of_drawn {objects : Set Value}
    (hdistinct : ∀ v ∈ objects, ∀ w ∈ objects, v.place? = w.place? → v = w) {a b : Value}
    (ha : a.Drawn objects) (hb : b.Drawn objects) : a.equal b = true ↔ a.isAlike b = true := by
  induction a generalizing b with
  | pair m first rest ihFirst ihRest =>
      cases b with
      | pair m' first' rest' => simp [equal, isAlike, ihFirst ha.1 hb.1, ihRest ha.2 hb.2]
      | _ => simp [equal, eqv, isAlike]
  | lambda m closure formal body _ =>
      cases b with
      | lambda m' closure' formal' body' =>
          simp only [equal, eqv, isSame_iff]
          constructor
          · intro heq
            rw [heq, isAlike_refl]
          · intro halike
            simp only [isAlike, Bool.and_eq_true, beq_iff_eq] at halike
            obtain ⟨⟨rfl, _⟩, _⟩ := halike
            exact hdistinct _ ha.1 _ hb.1 rfl
      | _ => simp [equal, eqv, isAlike]
  | port m id =>
      cases b with
      | port m' id' =>
          simp only [equal, eqv, isSame_iff, isAlike, beq_iff_eq]
          constructor
          · intro heq
            exact (Value.port.inj heq).2
          · rintro rfl
            exact hdistinct _ ha _ hb rfl
      | _ => simp [equal, eqv, isAlike]
  | _ => cases b <;> simp [equal, eqv, isAlike]

namespace Situation

/-! ### Programs -/

section Programs

variable {i : Interpreter} {held : List Value} {last r : Except Error Value} {s t : State}

theorem transitions_proceeds {m m' : Moment} (h : Transitions m m') :
    ReflTransGen Proceeds ⟨held, m⟩ ⟨held, m'⟩ :=
  h.lift (Situation.mk held) fun _ _ => .work

/-- No object with a place is in what a text denotes. -/
theorem drawn_makeDatum (d : Datum) (s : State) : (State.makeDatum d s).1.Drawn ∅ :=
  (Value.drawn_inherited ∅).makeDatum (fun _ _ => trivial) d s

/-- Whoever holds an environment can have a `lambda` form evaluated in it. -/
theorem lambda_proceeds {operands formals body : Value} {formal : Formal} {env : EnvId}
    {mark : Mark}
    (henv : .environment mark env ∈ (Control.answer last).values ++ held)
    (hdata : operands.Offered s ((Control.answer last).values ++ held)) (hdrawn : operands.Drawn ∅)
    (h : operands.elements = [formals, body]) (hformal : Formal.ofValue? formals = some formal) :
    ReflTransGen Proceeds ⟨held, ⟨.answer last, [], s⟩⟩
      ⟨(Control.answer last).values ++ held,
        ⟨.answer (.ok (.lambda ⟨s.nextMark⟩ ⟨s.environments.size⟩ formal body)), [],
          (s.grown (s.bindings env)).marked⟩⟩ := by
  have hbegins : Proceeds ⟨held, ⟨.answer last, [], s⟩⟩
      ⟨(Control.answer last).values ++ held, ⟨.task (.form .lambda operands env), [], s⟩⟩ := by
    refine .begins rfl (Nat.le_refl _) (List.forall_mem_singleton.mpr hdata) ?_ (.held henv)
    intro v hv w hpart hport
    rw [List.mem_singleton.mp hv] at hpart
    exact absurd hport (hdrawn.not_port hpart)
  exact .head hbegins (.single (.work (.ends (.lambda h hformal))))

/-- Evaluating what a text denotes is part of a run of programs. -/
theorem evaluateDatum_proceeds (heval : ∃ depth rounds, i.evaluate = eval depth rounds)
    {mark : Mark} (hroot : .environment mark i.root ∈ (Control.answer last).values ++ held)
    {d : Datum} (h : i.evaluateDatum d s = some (r, t)) :
    ReflTransGen Proceeds ⟨held, ⟨.answer last, [], s⟩⟩
      ⟨(Control.answer last).values ++ held, ⟨.answer r, [], t⟩⟩ := by
  obtain ⟨depth, rounds, heval⟩ := heval
  have hrun : eval depth rounds (State.makeDatum d s).1 i.root (State.makeDatum d s).2 =
      some (r, t) := by
    rw [← heval]
    exact h
  have hderives := eval_sound depth rounds _ i.root _ r t hrun
  obtain ⟨f, hf⟩ := State.makeDatum_marks d
  have hports : (State.makeDatum d s).2.ports = s.ports := by rw [hf]
  refine .head (.begins (environments_makeDatum d s) (Nat.le_of_eq (by rw [hports])) ?_ ?_
    (.held hroot)) (transitions_proceeds (hderives.transitions []))
  · intro v hv
    rw [List.mem_singleton.mp hv]
    exact offered_makeDatum s _ d
  · intro v hv w hpart hport
    rw [List.mem_singleton.mp hv] at hpart
    exact absurd hport ((drawn_makeDatum d s).not_port hpart)

/-- Programs alone lead to an answer in `t`, with all of some values at hand. -/
def LeadsTo (σ : Situation) (vs : List Value) (t : State) : Prop :=
  ∃ held last, ReflTransGen Proceeds σ ⟨held, ⟨.answer last, [], t⟩⟩ ∧
    ∀ v ∈ vs, v ∈ (Control.answer last).values ++ held

/-- The value of a datum is at hand besides what was. -/
theorem LeadsTo.evaluateDatum {σ : Situation} {vs : List Value} {mark : Mark} {d : Datum}
    (heval : ∃ depth rounds, i.evaluate = eval depth rounds)
    (h : σ.LeadsTo (.environment mark i.root :: vs) s) (hrun : i.evaluateDatum d s = some (r, t)) :
    σ.LeadsTo (.environment mark i.root :: (r.toOption.toList ++ vs)) t := by
  obtain ⟨held, last, hproceeds, hvalues⟩ := h
  have hroot := hvalues _ List.mem_cons_self
  refine ⟨_, r, hproceeds.trans (evaluateDatum_proceeds heval hroot hrun), ?_⟩
  refine List.forall_mem_cons.mpr ⟨List.mem_append_right _ hroot, List.forall_mem_append.mpr
    ⟨fun v hv => List.mem_append_left _ ?_, fun v hv => List.mem_append_right _ ?_⟩⟩
  · cases r <;> exact hv
  · exact hvalues v (List.mem_cons_of_mem _ hv)

/-- A program that is run by an interpreter just started is a run of programs, and what it reports
is at hand in the end. -/
theorem run_produced {limits : Limits} {files : FileSystem} {tracing : Bool}
    (hstart : Interpreter.start limits tracing (State.initial files) = (i, s)) {input : Input}
    {report : Report} (h : i.run input s = some (report, t)) :
    ∃ held last, Produced ⟨held, ⟨.answer last, [], t⟩⟩ ∧
      ∀ v ∈ report.values, Contains ⟨held, ⟨.answer last, [], t⟩⟩ v := by
  obtain ⟨hmade, heval⟩ := interpreter_start hstart
  have hbegun : (start files tracing).LeadsTo [.environment ⟨0⟩ i.root] s := by
    rw [start_eq hmade]
    exact ⟨[], _, .refl, fun v hv => hv⟩
  obtain ⟨held, last, hproceeds, hvalues⟩ := i.runFrom_preserves
    (P := fun vs u => (start files tracing).LeadsTo (.environment ⟨0⟩ i.root :: vs) u)
    (fun _ _ _ _ _ hled hrun => hled.evaluateDatum ⟨_, _, heval⟩ hrun) h hbegun
  refine ⟨held, last, ⟨files, tracing, hproceeds⟩, fun v hv => Or.inl ⟨v, ?_, .refl v⟩⟩
  have hhand := hvalues v (List.mem_cons_of_mem _ (List.mem_reverse.mpr hv))
  simpa [Situation.values, or_comm] using hhand

/-- A program that is run by an interpreter just started ends in a situation that can be
reached. -/
theorem run_follows {limits : Limits} {files : FileSystem} {tracing : Bool}
    (hstart : Interpreter.start limits tracing (State.initial files) = (i, s)) {input : Input}
    {report : Report} (h : i.run input s = some (report, t)) :
    ∃ held last, Reachable ⟨held, ⟨.answer last, [], t⟩⟩ := by
  obtain ⟨held, last, hproduced, -⟩ := run_produced hstart h
  exact ⟨held, last, hproduced.reachable⟩

end Programs

end Situation

open Situation in
/-- Whatever programs do, equality on everything there is to see at any moment, values and bindings
and parts of these, is having the same contents, and two lambdas with one closure are one lambda.
That holds of what any program reports that is run by an interpreter just started. -/
theorem equal_iff_isAlike :
    (∀ σ, Produced σ → ∀ a b, σ.Contains a → σ.Contains b →
      (a.equal b = true ↔ a.isAlike b = true) ∧
      ∀ m m' closure formal formal' body body', a = .lambda m closure formal body →
        b = .lambda m' closure formal' body' → a = b) ∧
    ∀ limits files tracing i s input report t,
      Interpreter.start limits tracing (State.initial files) = (i, s) →
      i.run input s = some (report, t) →
      ∃ σ, Produced σ ∧ σ.state = t ∧ ∀ v ∈ report.values, σ.Contains v := by
  refine ⟨fun σ hσ a b ha hb => ?_, fun limits files tracing i s input report t hstart hrun => ?_⟩
  swap
  · obtain ⟨held, last, hproduced, hvalues⟩ := run_produced hstart hrun
    exact ⟨_, hproduced, rfl, hvalues⟩
  obtain ⟨objects, hdrawn⟩ := produced_drawn hσ
  have hdistinct := hdrawn.state.distinct
  have ha := hdrawn.contains ha
  have hb := hdrawn.contains hb
  refine ⟨Value.equal_iff_isAlike_of_drawn hdistinct ha hb, ?_⟩
  rintro m m' closure formal formal' body body' rfl rfl
  exact hdistinct _ ha.1 _ hb.1 rfl

/-- The operands of `(lambda () ())`. -/
def emptyLambda : Value :=
  .pair ⟨0⟩ (.nil ⟨0⟩) (.pair ⟨0⟩ (.nil ⟨0⟩) (.nil ⟨0⟩))

open Situation in
/-- `(lambda () ())` evaluated twice makes two lambdas, each with a closure of its own. -/
theorem emptyLambda_twice :
    ∃ σ m m', Produced σ ∧
      σ.Contains (.lambda m ⟨1⟩ .nothing (.nil ⟨0⟩)) ∧
      σ.Contains (.lambda m' ⟨2⟩ .nothing (.nil ⟨0⟩)) := by
  obtain ⟨b, s, hstart, henvironments, _, _⟩ := start_apply .empty false
  have hsize : s.environments.size = 1 := by
    rw [henvironments]
    rfl
  let root : Value := .environment ⟨0⟩ ⟨0⟩
  let t := (s.grown (s.bindings ⟨0⟩)).marked
  let first : Value := .lambda ⟨s.nextMark⟩ ⟨1⟩ .nothing (.nil ⟨0⟩)
  let second : Value := .lambda ⟨t.nextMark⟩ ⟨2⟩ .nothing (.nil ⟨0⟩)
  let σ : Situation :=
    ⟨[first, root], ⟨.answer (.ok second), [], (t.grown (t.bindings ⟨0⟩)).marked⟩⟩
  have hdata {u : State} {held : List Value} : emptyLambda.Offered u held :=
    .pair (.plain rfl) (.pair (.plain rfl) (.plain rfl))
  have hdrawn : emptyLambda.Drawn ∅ := by simp [emptyLambda, Value.Drawn]
  have hproduced : Produced σ := by
    refine ⟨.empty, false, ?_⟩
    have hroot : root ∈ (Control.answer (.ok root)).values ++ [] := List.mem_cons_self
    have hroot' : root ∈ (Control.answer (.ok first)).values ++ [root] :=
      List.mem_cons_of_mem _ List.mem_cons_self
    have hformal : Formal.ofValue? (.nil ⟨0⟩) = some .nothing := rfl
    have hfirst := lambda_proceeds (s := s) hroot hdata hdrawn rfl hformal
    have hsecond := lambda_proceeds (s := t) hroot' hdata hdrawn rfl hformal
    have htwo : t.environments.size = 2 := by simp [t, hsize]
    rw [hsize] at hfirst
    rw [htwo] at hsecond
    rw [hstart]
    exact hfirst.trans hsecond
  have hfirst : σ.Contains first := Or.inl ⟨first, List.mem_cons_self, .refl first⟩
  have hsecond : σ.Contains second :=
    Or.inl ⟨second, by simp [σ, Situation.values, Control.values], .refl second⟩
  exact ⟨σ, _, _, hproduced, hfirst, hsecond⟩

open Situation in
/-- The lambdas of `(lambda () ())` evaluated twice have the same formals and the same body, and yet
they neither have the same contents nor are equal.  Of what `() ()` reports both hold. -/
theorem equal_iff_isAlike_lambdas :
    (∃ σ m m', Produced σ ∧
      σ.Contains (.lambda m ⟨1⟩ .nothing (.nil ⟨0⟩)) ∧
      σ.Contains (.lambda m' ⟨2⟩ .nothing (.nil ⟨0⟩)) ∧
      ¬ (Value.lambda m ⟨1⟩ .nothing (.nil ⟨0⟩)).isAlike (.lambda m' ⟨2⟩ .nothing (.nil ⟨0⟩)) ∧
      ¬ (Value.lambda m ⟨1⟩ .nothing (.nil ⟨0⟩)).equal (.lambda m' ⟨2⟩ .nothing (.nil ⟨0⟩))) ∧
    ∃ i s report t a b, Interpreter.start ⟨1, 3⟩ false (State.initial .empty) = (i, s) ∧
      i.run (.ofText "() ()") s = some (report, t) ∧ report.values = [a, b] ∧ a ≠ b ∧
      a.isAlike b ∧ a.equal b := by
  constructor
  · obtain ⟨σ, m, m', hσ, hfirst, hsecond⟩ := emptyLambda_twice
    have hiff := (equal_iff_isAlike.1 σ hσ _ _ hfirst hsecond).1
    have hunlike : ¬ (Value.lambda m ⟨1⟩ .nothing (.nil ⟨0⟩)).isAlike
        (.lambda m' ⟨2⟩ .nothing (.nil ⟨0⟩)) = true := by simp [Value.isAlike]
    exact ⟨σ, m, m', hσ, hfirst, hsecond, hunlike, mt hiff.mp hunlike⟩
  · rcases hstart : Interpreter.start ⟨1, 3⟩ false (State.initial .empty) with ⟨i, s⟩
    have hi : i = ⟨eval 1 3, i.root, 3⟩ := interpreter_start_eq hstart
    let next : Mark := ⟨(s.marked.trace (.evaluating (.nil ⟨s.nextMark⟩))).nextMark⟩
    have hnext : next = ⟨s.nextMark + 1⟩ := by simp [next, State.marked]
    obtain ⟨t, hrun⟩ : ∃ t, i.run (.ofText "() ()") s =
        some (⟨[.nil ⟨s.nextMark⟩, .nil next], none⟩, t) := by
      rw [hi]
      exact ⟨_, rfl⟩
    rw [hnext] at hrun
    obtain ⟨σ, hσ, _, hcontained⟩ := equal_iff_isAlike.2 _ _ _ _ _ _ _ _ hstart hrun
    have hfirst := hcontained (.nil ⟨s.nextMark⟩) List.mem_cons_self
    have hsecond := hcontained (.nil ⟨s.nextMark + 1⟩)
      (List.mem_cons_of_mem _ List.mem_cons_self)
    have hiff := (equal_iff_isAlike.1 σ hσ _ _ hfirst hsecond).1
    exact ⟨i, s, _, t, _, _, rfl, hrun, rfl, by simp, rfl, hiff.mpr rfl⟩

end TinyLisp
