import TinyLisp.Proofs.Environments.Initial
import TinyLisp.Proofs.Procedures.Ports

/-!
In whose name a call fails.  A procedure complains about its arguments in its own name; about a port
that cannot be written to the complaint is that of `write`, whoever was to write there.  Main
statement: `native_failures`, for the procedures as the initial environment binds them.
-/

namespace TinyLisp

namespace State

/-- What the initial environment binds to a procedure is that procedure's name. -/
theorem name_of_initialEnvironment {s : State} {x : String} {m : Mark} {p : Native}
    (h : s.initialEnvironment.2.lookup s.initialEnvironment.1 x = some (.native m p)) :
    p.name = x := by
  obtain ⟨b, t, hmade, henvironments, _, hb⟩ := initialEnvironment_apply s
  rw [hmade, lookup, bindings, henvironments] at h
  obtain ⟨_, p', heq, hname⟩ := hb x _ (by simpa using h)
  cases heq
  exact hname

end State

namespace Procedures

variable {p q : Native} {args : Value} {s t : State} {cause : CallError}

/-- The call is for output to a port that cannot be written to. -/
def WritesInVain (p : Native) (args : Value) (s : State) : Prop :=
  ∃ text id, act? p args = some (.output text (some id)) ∧ (s.port id).output = none

theorem eq_read_of_act? {id : PortId} (h : act? p args = some (.read id)) : p = .read := by
  unfold act? at h
  split at h <;> cases h
  rfl

theorem eq_writer_of_act? {text : String} {target : Option PortId}
    (h : act? p args = some (.output text target)) :
    p = .write ∨ p = .display ∨ p = .newline := by
  unfold act? at h
  split at h <;> cases h
  all_goals simp

/-- What is read from a port has no procedure to blame. -/
theorem scan_ne_native (fs : FileSystem) (i : Input) (q : Native) (cause : CallError) :
    (i.readDatum fs).1 ≠ .error (.native q cause) := by
  intro h
  rcases scan_complaint h with heq | hcomplaint
  · cases heq
  · cases hcomplaint

/-- A call that fails with a complaint makes it in its own name, or in that of `write`. -/
theorem blamed_of_call (h : call p args s = (.error (.native q cause), t)) :
    q = p ∨ WritesInVain p args s ∧ q = .write := by
  by_cases hp : p.dealsWithPorts = true
  · cases hact : act? p args with
    | none =>
        obtain ⟨_, hrefused, _⟩ := call_refused hp hact
        rw [hrefused] at h
        cases h
        exact .inl rfl
    | some act =>
        rw [call_of_act? hact] at h
        have hact' := (answering_eq_iff (r := .error _)).mp h
        cases actFails_of_carryOut (congrArg Prod.fst hact') with
        | unread _ hread => exact absurd hread (scan_ne_native _ _ _ _)
        | notReadable => exact .inl (eq_read_of_act? hact).symm
        | notWritable hsink => exact .inr ⟨⟨_, _, hact, hsink⟩, rfl⟩
  · obtain ⟨_, heq, _⟩ := call_faults (by simpa using hp) args s _ (congrArg Prod.fst h)
    cases heq
    exact .inl rfl

/-- Writing in vain changes nothing, and `write` is blamed for it. -/
theorem WritesInVain.call_eq (h : WritesInVain p args s) :
    call p args s = (.error (.native .write .notWritable), s) := by
  obtain ⟨text, id, hact, hsink⟩ := h
  rw [call_of_act? hact]
  refine (answering_eq_iff (r := .error _)).mpr ?_
  simp only [PortAct.carryOut, State.writePort_of_none hsink]

end Procedures

open Procedures in
/-- A procedure had from the initial environment makes its complaints in the name it is bound to
there, with one exception: output to a port without a side for it, by `display` and `newline` too,
is refused in the name of `write`. -/
theorem native_failures {s₀ : State} {x : String} {m : Mark} {p : Native}
    (hbound : s₀.initialEnvironment.2.lookup s₀.initialEnvironment.1 x = some (.native m p))
    (args : Value) (s : State) :
    (¬ WritesInVain p args s → ∀ q cause t,
      call p args s = (.error (.native q cause), t) → q.name = x) ∧
    (WritesInVain p args s → (x = "write" ∨ x = "display" ∨ x = "newline") ∧
      call p args s = (.error (.native .write .notWritable), s)) := by
  cases State.name_of_initialEnvironment hbound
  refine ⟨fun hvain q cause t h => ?_, fun hvain => ⟨?_, hvain.call_eq⟩⟩
  · rcases blamed_of_call h with rfl | ⟨hvain', _⟩
    · rfl
    · exact absurd hvain' hvain
  · obtain ⟨text, id, hact, _⟩ := hvain
    rcases eq_writer_of_act? hact with rfl | rfl | rfl
    · exact .inl rfl
    · exact .inr (.inl rfl)
    · exact .inr (.inr rfl)

open Procedures in
/-- Without arguments `display` complains in its own name; of a closed port it is `write` that
complains. -/
theorem native_failures_display :
    let s := { State.initial .empty with ports := #[⟨none, none, ""⟩] }
    let args := Value.pair ⟨3⟩ (.number ⟨2⟩ 1) (.pair ⟨1⟩ (.port ⟨0⟩ ⟨0⟩) (.nil ⟨4⟩))
    (∃ q cause, call .display (.nil ⟨0⟩) s = (.error (.native q cause), s) ∧ q.name = "display") ∧
      call .display args s = (.error (.native .write .notWritable), s) := by
  intro s args
  obtain ⟨m, hbound⟩ := s.initialEnvironment_binds .display
  have hvain : ¬ WritesInVain .display (.nil ⟨0⟩) s := by
    rintro ⟨_, _, hact, _⟩
    cases hact
  have hfails : call .display (.nil ⟨0⟩) s = (.error (.native .display .outputOperands), s) := rfl
  exact ⟨⟨_, _, hfails, (native_failures hbound _ s).1 hvain _ _ _ hfails⟩,
    ((native_failures hbound args s).2 ⟨_, ⟨0⟩, rfl, rfl⟩).2⟩

open Procedures in
/-- Not every complaint is made in the name of the procedure that was called. -/
theorem not_native_failures_named :
    ¬ ∀ (s₀ : State) (x : String) (m : Mark) (p : Native), p ≠ .eval →
      s₀.initialEnvironment.2.lookup s₀.initialEnvironment.1 x = some (.native m p) →
      ∀ args s q cause t, call p args s = (.error (.native q cause), t) → q.name = x := by
  intro h
  let s := { State.initial .empty with ports := #[⟨none, none, ""⟩] }
  obtain ⟨m, hbound⟩ := s.initialEnvironment_binds .newline
  have hname := h s _ m .newline (by decide) hbound
    (.pair ⟨2⟩ (.port ⟨1⟩ ⟨0⟩) (.nil ⟨0⟩)) s .write .notWritable s rfl
  exact absurd hname (by decide)

end TinyLisp
