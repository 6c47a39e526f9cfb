import TinyLisp.Proofs.Environments.Initial
import TinyLisp.Proofs.Evaluation.Renaming

/-!
Objects that have been made.  A state is made when every object in it has a mark that was given out,
and a made state leads to made states only.  Main statements: `start_made` and `eval_made`, and
`eval_delayed`, where marks that are given out later than they would be make no other difference.
-/

namespace TinyLisp

/-! ### What a renaming leaves as it is -/

namespace Value

variable {f : Mark → Mark} {v : Value}

theorem rename_eq_self_iff : v.rename f = v ↔ ∀ m ∈ v.marks, f m = m := by
  constructor
  · intro h
    have hmarks := congrArg marks h
    rw [marks_rename] at hmarks
    exact List.map_inj_left.mp (hmarks.trans (List.map_id _).symm)
  · intro h
    exact (rename_congr h).trans (rename_id v)

end Value

theorem Bindings.find?_of_mem {b : Bindings} {x : String} {v : Value} (h : (x, v) ∈ b.entries) :
    b.find? x = some v := by
  obtain ⟨before, after, hentries⟩ := List.append_of_mem h
  have hnodup := b.nodup
  rw [hentries, List.map_append, List.map_cons, List.nodup_append] at hnodup
  refine List.lookup_eq_some_iff.mpr ⟨before, after, hentries, fun entry hentry => ?_⟩
  have hne := hnodup.2.2 entry.1 (List.mem_map_of_mem hentry) x List.mem_cons_self
  simpa using Ne.symm hne

theorem Bindings.rename_eq_self {f : Mark → Mark} {b : Bindings}
    (h : ∀ x v, b.find? x = some v → v.rename f = v) : b.rename f = b := by
  apply eq_of_entries
  refine (List.map_congr_left fun entry hentry => ?_).trans (List.map_id _)
  rw [Prod.map_apply', h entry.1 entry.2 (find?_of_mem hentry)]
  rfl

namespace Event

/-- The marks of the objects that a report is about. -/
def marks : Event → List Mark
  | evaluating expr => expr.marks
  | applying procedure args => procedure.marks ++ args.marks
  | _ => []

theorem rename_eq_self_iff {f : Mark → Mark} {e : Event} :
    e.rename f = e ↔ ∀ m ∈ e.marks, f m = m := by
  cases e with
  | applying procedure args =>
      simp only [rename, marks, applying.injEq, Value.rename_eq_self_iff, List.forall_mem_append]
  | _ => simp [rename, marks, Value.rename_eq_self_iff]

end Event

/-! ### Made objects -/

/-- All objects that the value is made of were made before a mark was given out. -/
def Value.Made (next : Nat) (v : Value) : Prop :=
  ∀ m ∈ v.marks, m.index < next

theorem Value.Made.mono {next later : Nat} {v : Value} (h : v.Made next) (hle : next ≤ later) :
    v.Made later :=
  fun m hm => Nat.lt_of_lt_of_le (h m hm) hle

/-- All objects that can be had from the state were made. -/
structure State.Made (s : State) : Prop where
  bound : ∀ env x v, s.lookup env x = some v → v.Made s.nextMark
  reported : ∀ e ∈ s.events, ∀ m ∈ e.marks, m.index < s.nextMark

namespace State

variable {ρ : Renaming} {s : State}

/-- A renaming of other objects than those of a state is one of the marks to come. -/
theorem Made.rename_eq (hs : s.Made) (h : ∀ m : Mark, m.index < s.nextMark → ρ.map m = m) :
    s.rename ρ = { s with nextMark := ρ.next s.nextMark } := by
  have henvironments : s.environments.map (Bindings.rename ρ.map) = s.environments := by
    refine Array.ext (Array.size_map ..) fun i hmap hi => ?_
    rw [Array.getElem_map]
    refine Bindings.rename_eq_self fun x v hv => Value.rename_eq_self_iff.mpr fun m hm => ?_
    have hlookup : s.lookup ⟨i⟩ x = some v := by simpa [lookup, bindings, hi] using hv
    exact h m (hs.bound ⟨i⟩ x v hlookup m hm)
  have hevents : s.events.map (Event.rename ρ.map) = s.events :=
    (List.map_congr_left fun e he => Event.rename_eq_self_iff.mpr fun m hm =>
      h m (hs.reported e he m hm)).trans (List.map_id _)
  rw [rename, henvironments, hevents]

/-- What a renaming leaves as it is has none of the marks that it moves. -/
theorem made_of_rename_eq (h : ∀ n, s.nextMark ≤ n →
    ∃ ρ : Renaming, ρ.map ⟨n⟩ ≠ ⟨n⟩ ∧ s.rename ρ = s) : s.Made := by
  constructor
  · intro env x v hv m hm
    by_contra hlater
    obtain ⟨ρ, hmoved, hsame⟩ := h m.index (by omega)
    have hrenamed := lookup_rename (ρ := ρ) s env x
    rw [hsame, hv] at hrenamed
    exact hmoved (Value.rename_eq_self_iff.mp (Option.some.inj hrenamed).symm m hm)
  · intro e he m hm
    by_contra hlater
    obtain ⟨ρ, hmoved, hsame⟩ := h m.index (by omega)
    have hevents : s.events.map (Event.rename ρ.map) = s.events := congrArg events hsame
    have hreported := List.map_inj_left.mp (hevents.trans (List.map_id _).symm) e he
    exact hmoved (Event.rename_eq_self_iff.mp hreported m hm)

theorem Made.later (hs : s.Made) {n : Nat} (hn : s.nextMark ≤ n) :
    State.Made { s with nextMark := n } where
  bound env x v hv := (hs.bound env x v hv).mono hn
  reported e he m hm := Nat.lt_of_lt_of_le (hs.reported e he m hm) hn

theorem Made.grown (hs : s.Made) {b : Bindings}
    (hb : ∀ x v, b.find? x = some v → v.Made s.nextMark) : (s.grown b).Made where
  bound env x v hv := by
    rw [lookup, bindings_grown] at hv
    split at hv
    · exact hb x v hv
    · exact hs.bound env x v hv
  reported := hs.reported

theorem Made.report (hs : s.Made) {e : Event} (he : e.marks = []) : (s.report e).Made where
  bound := hs.bound
  reported := by
    intro e' he' m hm
    rcases List.mem_cons.mp he' with rfl | hold
    · rw [he] at hm
      cases hm
    · exact hs.reported e' hold m hm

end State

/-! ### Renamings of marks to come -/

namespace Mark

/-- Moves `p` marks from `a` on behind the `q` marks after them. -/
def rotate (a p q : Nat) (m : Mark) : Mark :=
  if m.index < a then m
  else if m.index < a + p then ⟨m.index + q⟩
  else if m.index < a + p + q then ⟨m.index - p⟩
  else m

theorem rotate_injective (a p q : Nat) : Function.Injective (rotate a p q) := by
  rintro ⟨i⟩ ⟨j⟩ h
  simp only [rotate] at h
  grind

/-- Leaves room for `gap` marks from `first` on. -/
def delay (first gap : Nat) (m : Mark) : Mark :=
  if m.index < first then m else ⟨m.index + gap⟩

theorem delay_injective (first gap : Nat) : Function.Injective (delay first gap) := by
  rintro ⟨i⟩ ⟨j⟩ h
  simp only [delay] at h
  grind

end Mark

namespace Renaming

/-- Exchanges two marks that come after all that are given out. -/
def exchange (n : Nat) : Renaming where
  map := Mark.rotate n 1 1
  injective := Mark.rotate_injective n 1 1
  next := id
  window m := m < n
  map_mark m hm := by simp [Mark.rotate, hm]
  next_succ _ _ := rfl

/-- Gives out all marks from `first` on later. -/
def delay (first gap : Nat) : Renaming where
  map := Mark.delay first gap
  injective := Mark.delay_injective first gap
  next n := n + gap
  window n := first ≤ n
  map_mark n hn := by simp [Mark.delay, Nat.not_lt.mpr hn]
  next_succ n _ := by omega

/-- Gives out `count` marks at once that were given out later. -/
def hasten (first gap count : Nat) : Renaming where
  map := Mark.rotate first gap count
  injective := Mark.rotate_injective first gap count
  next n := n - gap
  window n := first + gap ≤ n ∧ n < first + gap + count
  map_mark n hn := by
    have hfirst : ¬ n < first := by omega
    simp [Mark.rotate, hfirst, Nat.not_lt.mpr hn.1, hn.2]
  next_succ n hn := by omega

end Renaming

theorem exchange_of_lt {n : Nat} {m : Mark} (h : m.index < n) :
    (Renaming.exchange n).map m = m := by
  simp [Renaming.exchange, Mark.rotate, h]

theorem exchange_self_ne (n : Nat) : (Renaming.exchange n).map ⟨n⟩ ≠ ⟨n⟩ := by
  simp [Renaming.exchange, Mark.rotate]

/-! ### Runs -/

variable {s t : State} {r : Except Error Value} {expr : Value} {env : EnvId} {depth rounds : Nat}

/-- A run to which marks to come are all alike has none of them in what it answers and leaves. -/
theorem Run.made_of_carries {m : Run Value} (hs : s.Made) (hrun : m s = some (r, t))
    (hm : ∀ n, s.nextMark ≤ n →
      Run.Carries (.exchange n) (Value.rename (Renaming.exchange n).map) m m) :
    t.Made ∧ ∀ v, r = .ok v → v.Made t.nextMark := by
  -- Exchanging two marks to come changes nothing before the run, and so nothing after it.
  have hle : s.nextMark ≤ t.nextMark := (hm s.nextMark (Nat.le_refl _) s r t hrun).1
  have hsame (n : Nat) (hn : t.nextMark ≤ n) :
      r.map (Value.rename (Renaming.exchange n).map) = r ∧ t.rename (.exchange n) = t := by
    have hexchanged : s.rename (.exchange n) = s :=
      hs.rename_eq fun m hm => exchange_of_lt (by omega)
    have hrenamed := (hm n (Nat.le_trans hle hn) s r t hrun).2 fun k _ hk =>
      Nat.lt_of_lt_of_le hk hn
    rw [hexchanged, hrun] at hrenamed
    obtain ⟨hresult, hstate⟩ := Prod.mk.inj (Option.some.inj hrenamed)
    exact ⟨hresult.symm, hstate.symm⟩
  refine ⟨State.made_of_rename_eq fun n hn => ⟨_, exchange_self_ne n, (hsame n hn).2⟩, ?_⟩
  rintro v rfl m hmem
  by_contra hlater
  have hresult := Except.ok.inj (hsame m.index (by omega)).1
  exact exchange_self_ne m.index (Value.rename_eq_self_iff.mp hresult m hmem)

namespace Evaluator

/-- Evaluation has to do with made objects only, as long as its expression has. -/
theorem eval_made (hs : s.Made) (hexpr : expr.Made s.nextMark)
    (hrun : eval depth rounds expr env s = some (r, t)) :
    t.Made ∧ ∀ v, r = .ok v → v.Made t.nextMark := by
  refine Run.made_of_carries hs hrun fun n hn => ?_
  have hsame : expr.rename (Renaming.exchange n).map = expr :=
    Value.rename_eq_self_iff.mpr fun m hm =>
      exchange_of_lt (Nat.lt_of_lt_of_le (hexpr m hm) hn)
  have hcarries := eval_carries (.exchange n) depth rounds expr env
  rwa [hsame] at hcarries

/-- Evaluation from one mark on does what it does from another mark on, renamed, if the renaming
leaves the marks of what there is as they are. -/
theorem eval_renamed {ρ : Renaming} (hs : s.Made) (hexpr : expr.Made s.nextMark)
    (hkept : ∀ m : Mark, m.index < s.nextMark → ρ.map m = m) {n : Nat}
    (hrun : eval depth rounds expr env { s with nextMark := n } = some (r, t)) :
    n ≤ t.nextMark ∧ (ρ.Covers n t.nextMark →
      eval depth rounds expr env { s with nextMark := ρ.next n } =
        some (r.map (Value.rename ρ.map), t.rename ρ)) := by
  have hexpr' : expr.rename ρ.map = expr :=
    Value.rename_eq_self_iff.mpr fun m hm => hkept m (hexpr m hm)
  have hs' : State.rename ρ { s with nextMark := n } = { s with nextMark := ρ.next n } :=
    congrArg (fun s : State => { s with nextMark := ρ.next n }) (hs.rename_eq hkept)
  have hcarries := eval_carries ρ depth rounds expr env _ r t hrun
  rwa [hexpr', hs'] at hcarries

/-- Where marks are given out later, evaluation does the same with other marks. -/
theorem eval_delayed (hs : s.Made) (hexpr : expr.Made s.nextMark) (gap : Nat) :
    eval depth rounds expr env { s with nextMark := s.nextMark + gap } =
      (eval depth rounds expr env s).map fun (r, t) =>
        (r.map (Value.rename (Renaming.delay s.nextMark gap).map),
          t.rename (.delay s.nextMark gap)) := by
  cases hrun : eval depth rounds expr env s with
  | some answer =>
      obtain ⟨-, hlater⟩ := eval_renamed (ρ := .delay s.nextMark gap) hs hexpr
        (fun m hm => if_pos hm) hrun
      exact hlater fun n hn _ => hn
  | none =>
      cases hdelayed : eval depth rounds expr env { s with nextMark := s.nextMark + gap } with
      | none => rfl
      | some answer =>
          -- What is answered later could have been answered at once.
          let ρ := Renaming.hasten s.nextMark gap (answer.2.nextMark - (s.nextMark + gap))
          obtain ⟨hle, hsooner⟩ := eval_renamed (ρ := ρ) hs hexpr (fun m hm => if_pos hm) hdelayed
          have hanswer := hsooner fun n hn hlast => ⟨hn, by omega⟩
          have hnext : ρ.next (s.nextMark + gap) = s.nextMark := Nat.add_sub_cancel ..
          rw [hnext, hrun] at hanswer
          cases hanswer

end Evaluator

/-! ### Running programs -/

namespace State

theorem initial_made (files : FileSystem) : (initial files).Made where
  bound env x v hv := by simp [initial, lookup, bindings] at hv
  reported e he := by cases he

theorem install_made (members : List Native) {b : Bindings} {s : State}
    (hb : ∀ x v, b.find? x = some v → v.Made s.nextMark) :
    s.nextMark ≤ (install members b s).2.nextMark ∧
      ∀ x v, (install members b s).1.find? x = some v →
        v.Made (install members b s).2.nextMark := by
  induction members generalizing b s with
  | nil => exact ⟨Nat.le_refl _, hb⟩
  | cons p members ih =>
      have hinsert (x : String) (v : Value)
          (hv : (b.insert p.name (.native ⟨s.nextMark⟩ p)).find? x = some v) :
          v.Made s.marked.nextMark := by
        rw [Bindings.find?_insert] at hv
        split at hv
        · cases hv
          intro m hm
          rw [List.mem_singleton.mp hm]
          exact Nat.lt_succ_self _
        · exact (hb x v hv).mono (Nat.le_succ _)
      obtain ⟨hle, hmade⟩ := ih hinsert
      rw [install, List.forIn_cons]
      exact ⟨Nat.le_trans (Nat.le_succ _) hle, hmade⟩

theorem installPacks_made (packs : List Pack) (hs : s.Made) : (installPacks packs s).2.Made := by
  have hnone (x : String) (v : Value) (hv : (∅ : Bindings).find? x = some v) :
      v.Made s.nextMark := by
    cases hv
  obtain ⟨b, n, hinstall, -⟩ :=
    install_apply (packs.flatMap Pack.members) (b := ∅) (fun x v hv => by cases hv) s
  obtain ⟨hle, hb⟩ := install_made (packs.flatMap Pack.members) hnone
  change (newEnvironment (install (packs.flatMap Pack.members) ∅ s).1
    (install (packs.flatMap Pack.members) ∅ s).2).2.Made
  rw [hinstall] at hle hb ⊢
  exact (hs.later hle).grown hb

theorem initialEnvironment_made (hs : s.Made) : (initialEnvironment s).2.Made := by
  rw [initialEnvironment_eq]
  exact (installPacks_made _ hs).report rfl

end State

namespace Interpreter

variable {i : Interpreter}

/-- Programs start with made objects only. -/
theorem start_made {limits : Limits} {tracing : Bool} (hs : s.Made)
    (h : start limits tracing s = (i, t)) : t.Made := by
  obtain ⟨hroot, -⟩ := Situation.interpreter_start h
  have hset : State.Made { s with tracing := tracing } := ⟨hs.bound, hs.reported⟩
  have hmade := State.initialEnvironment_made hset
  rwa [hroot] at hmade

variable (hev : ∀ ρ, Evaluator.Carries ρ i.evaluate)

include hev

theorem evaluateDatum_made {d : Datum} (hs : s.Made) (hrun : i.evaluateDatum d s = some (r, t)) :
    t.Made ∧ ∀ v, r = .ok v → v.Made t.nextMark :=
  Run.made_of_carries hs hrun fun _ _ =>
    (Run.Carries.perform (.makeDatum d)).bind fun v => hev _ v i.root

theorem runFrom_made {rounds : Nat} {input : Input} {seen : List Value} {report : Report}
    (hs : s.Made) (h : i.runFrom rounds input seen s = some (report, t)) : t.Made :=
  runFrom_preserves (P := fun _ u => u.Made)
    (fun _ _ _ _ _ hu hrun => (evaluateDatum_made hev hu hrun).1) h hs

end Interpreter

/-- A program has to do with made objects only. -/
theorem Interpreter.run_made {i : Interpreter} {limits : Limits} {tracing : Bool}
    {files : FileSystem} (hstart : start limits tracing (.initial files) = (i, s)) {input : Input}
    {report : Report} (h : i.run input s = some (report, t)) : t.Made := by
  refine runFrom_made (fun ρ => ?_) (start_made (State.initial_made files) hstart) h
  rw [Situation.interpreter_start_eq hstart]
  exact Evaluator.eval_carries ρ _ _

end TinyLisp
