import TinyLisp.Proofs.Evaluation.Situation

/-!
What there is at the start.  The initial environment is the only one, and binds nothing but built-in
procedures, each under its own name.
-/

namespace TinyLisp

/-- Every binding is that of a built-in procedure to its name. -/
def Bindings.Stock (b : Bindings) : Prop :=
  ∀ x v, b.find? x = some v → ∃ m p, v = .native m p ∧ p.name = x

theorem Bindings.Stock.insert {b : Bindings} (hb : b.Stock) (m : Mark) (p : Native) :
    (b.insert p.name (.native m p)).Stock := by
  intro x v hv
  rw [find?_insert] at hv
  split at hv
  · next hx =>
      cases hv
      exact ⟨m, p, rfl, hx.symm⟩
  · exact hb x v hv

/-- A name that no built-in procedure has is free. -/
theorem Bindings.Stock.find?_eq_none {b : Bindings} (hb : b.Stock) {x : String}
    (hx : ∀ p : Native, p.name ≠ x) : b.find? x = none := by
  cases h : b.find? x with
  | none => rfl
  | some v =>
      obtain ⟨_, p, _, hp⟩ := hb x v h
      exact absurd hp (hx p)

/-- No built-in procedure has the name of a special form. -/
theorem Native.name_ne_keyword (p : Native) (k : Keyword) : p.name ≠ k.name := by
  cases k <;> cases p <;> decide

namespace State

/-- Binds procedures to their names, one after the other. -/
def install (members : List Native) (b : Bindings) : StateM State Bindings :=
  forIn members b fun p b => do
    return .yield (b.insert p.name (← make (Value.native · p)))

theorem install_apply (members : List Native) {b : Bindings} (hb : b.Stock) (s : State) :
    ∃ b' n, install members b s = (b', { s with nextMark := n }) ∧ b'.Stock := by
  induction members generalizing b s with
  | nil => exact ⟨b, s.nextMark, rfl, hb⟩
  | cons p members ih =>
      obtain ⟨b', n, hrun, hb'⟩ := ih (hb.insert ⟨s.nextMark⟩ p) s.marked
      refine ⟨b', n, ?_, hb'⟩
      rw [install, List.forIn_cons]
      exact hrun

/-- Whatever is installed is bound to its name, for no other procedure has that name. -/
theorem install_binds (members : List Native) {b : Bindings} (s : State) {p : Native}
    (h : p ∈ members ∨ ∃ m, b.find? p.name = some (.native m p)) :
    ∃ m, (install members b s).1.find? p.name = some (.native m p) := by
  induction members generalizing b s with
  | nil =>
      rcases h with hmem | hbound
      · cases hmem
      · exact hbound
  | cons q members ih =>
      rw [install, List.forIn_cons]
      apply ih
      rw [List.mem_cons] at h
      by_cases hq : p = q
      · subst hq
        exact Or.inr ⟨⟨s.nextMark⟩, by rw [Bindings.find?_insert, if_pos rfl]⟩
      · rcases h with (heq | hmem) | ⟨m, hbound⟩
        · exact absurd heq hq
        · exact Or.inl hmem
        · refine Or.inr ⟨m, ?_⟩
          rw [Bindings.find?_insert, if_neg fun hname => hq (Native.name_injective hname)]
          exact hbound

theorem installPacks_apply (packs : List Pack) (s : State) :
    ∃ b n, installPacks packs s =
        (⟨s.environments.size⟩,
          { s with nextMark := n, environments := s.environments.push b }) ∧ b.Stock ∧
      ∀ p ∈ packs.flatMap Pack.members, ∃ m, b.find? p.name = some (.native m p) := by
  obtain ⟨b, n, hrun, hb⟩ :=
    install_apply (packs.flatMap Pack.members) (b := ∅) (fun x v hv => by simp at hv) s
  have hbinds p (hp : p ∈ packs.flatMap Pack.members) :=
    install_binds (packs.flatMap Pack.members) (b := ∅) s (Or.inl hp)
  rw [hrun] at hbinds
  refine ⟨b, n, ?_, hb, hbinds⟩
  change newEnvironment (install (packs.flatMap Pack.members) ∅ s).1
    (install (packs.flatMap Pack.members) ∅ s).2 = _
  rw [hrun]
  rfl

theorem initialEnvironment_eq (s : State) :
    initialEnvironment s =
      let made := installPacks [.arithmetic, .lists, .system, .ports] s
      (made.1, made.2.report (.initialEnvironment (made.2.bindings made.1).size)) := by
  unfold initialEnvironment
  generalize installPacks [.arithmetic, .lists, .system, .ports] = installation
  rfl

/-- The initial environment is the next one there is, and a stock of procedures. -/
theorem initialEnvironment_apply (s : State) :
    ∃ b t, initialEnvironment s = (⟨s.environments.size⟩, t) ∧
      t.environments = s.environments.push b ∧ t.tracing = s.tracing ∧ b.Stock := by
  obtain ⟨b, n, hrun, hb, _⟩ := installPacks_apply [.arithmetic, .lists, .system, .ports] s
  rw [initialEnvironment_eq, hrun]
  exact ⟨b, _, rfl, rfl, rfl, hb⟩

/-- A name that no built-in procedure has is free in the initial environment. -/
theorem initialEnvironment_free (s : State) {x : String} (hx : ∀ p : Native, p.name ≠ x) :
    (initialEnvironment s).2.lookup (initialEnvironment s).1 x = none := by
  obtain ⟨b, t, hmade, henvironments, _, hb⟩ := initialEnvironment_apply s
  rw [hmade, lookup, bindings, henvironments]
  simpa using hb.find?_eq_none hx

/-- Every built-in procedure can be had by its name in the initial environment. -/
theorem initialEnvironment_binds (s : State) (p : Native) :
    ∃ m, (initialEnvironment s).2.lookup (initialEnvironment s).1 p.name =
      some (.native m p) := by
  obtain ⟨b, n, hrun, _, hbinds⟩ := installPacks_apply [.arithmetic, .lists, .system, .ports] s
  obtain ⟨m, hm⟩ := hbinds p p.mem_all
  refine ⟨m, ?_⟩
  rw [initialEnvironment_eq, hrun]
  change State.lookup (s.grown b) _ _ = _
  rw [lookup, bindings_grown, if_pos rfl]
  exact hm

end State

namespace Situation

/-- An interpreter starts in an environment that holds the procedures, at the first place. -/
theorem start_apply (files : FileSystem) (tracing : Bool) :
    ∃ b s, start files tracing = ⟨[], ⟨.answer (.ok (.environment ⟨0⟩ ⟨0⟩)), [], s⟩⟩ ∧
      s.environments = #[b] ∧ s.tracing = tracing ∧ b.Stock := by
  obtain ⟨b, s, hmade, henvironments, htracing, hb⟩ :=
    State.initialEnvironment_apply { State.initial files with tracing := tracing }
  exact ⟨b, s, start_eq hmade, henvironments, htracing, hb⟩

end Situation

end TinyLisp
