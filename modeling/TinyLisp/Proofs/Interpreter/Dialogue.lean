import Mathlib.Logic.Relation
import TinyLisp.CommandLine
import TinyLisp.Proofs.Run
import TinyLisp.Proofs.Text.Progress

/-!
Dialogues end.  Each round of a dialogue that has something to report takes at least one byte of the
input, so there are no more of them than bytes, whatever the bytes.  Main statement:
`reading_ends`, for calls of the reader, dialogues and the dialogue of the command line.  Of a given
dialogue `holdsWithin` tells by evaluating it whether its evaluations terminate.
-/

namespace TinyLisp

open CharStream Reader
open Relation (ReflTransGen)

theorem CharStream.Takes.length_lt {s t : CharStream} (h : Takes 1 s t) :
    t.bytes.length < s.bytes.length := by
  obtain ⟨taken, htaken, hbytes⟩ := h.bytes_eq
  rw [hbytes, List.length_append]
  omega

/-- The end, once met, stays. -/
theorem CharStream.Ended.calls {s t : CharStream} (h : s.Ended) (hcalls : ReflTransGen Call s t) :
    t.Ended := by
  induction hcalls with
  | refl => exact h
  | tail _ hcall ih => exact ih.call hcall

namespace Interpreter

/-- One round of a dialogue that had something to report. -/
def Follows (i : Interpreter) (p q : Input × State) : Prop :=
  ∃ r, i.round p.1 p.2 = some (some r, q)

/-- Every evaluation that a dialogue comes to terminates. -/
def Terminates (i : Interpreter) (p : Input × State) : Prop :=
  ∀ q, ReflTransGen i.Follows p q → ∀ d rest,
    q.1.readDatum q.2.files = (.ok (some d), rest) → i.evaluateDatum d q.2 ≠ none

variable {i : Interpreter} {p q : Input × State}

theorem Terminates.follows (h : i.Terminates p) (hfollows : i.Follows p q) : i.Terminates q :=
  fun r hr => h r (ReflTransGen.head hfollows hr)

/-- Whether a dialogue is done within some rounds, and `P` holds wherever it comes on the way. -/
def holdsWithin (i : Interpreter) (P : Input × State → Bool) : Nat → Input × State → Bool
  | 0, _ => false
  | rounds + 1, p =>
      P p &&
        match i.round p.1 p.2 with
        | none => false
        | some (none, _) => true
        | some (some _, q) => holdsWithin i P rounds q

/-- What was checked for a dialogue was checked for what is left of it after any of its rounds. -/
theorem exists_holdsWithin {P : Input × State → Bool} {rounds : Nat}
    (h : i.holdsWithin P rounds p = true) (hq : ReflTransGen i.Follows p q) :
    ∃ more, i.holdsWithin P (more + 1) q = true := by
  have hsome : ∃ more, i.holdsWithin P more q = true := by
    induction hq with
    | refl => exact ⟨rounds, h⟩
    | tail _ hfollows ih =>
        obtain ⟨_ | more, hmore⟩ := ih
        · cases hmore
        · obtain ⟨r, hround⟩ := hfollows
          rw [holdsWithin, hround, Bool.and_eq_true] at hmore
          exact ⟨more, hmore.2⟩
  obtain ⟨_ | more, hmore⟩ := hsome
  · cases hmore
  · exact ⟨more, hmore⟩

/-- A dialogue that is seen to be done came only to evaluations that terminate. -/
theorem holdsWithin_sound {P : Input × State → Bool} {rounds : Nat}
    (h : i.holdsWithin P rounds p = true) :
    i.Terminates p ∧ ∀ q, ReflTransGen i.Follows p q → P q = true := by
  constructor
  · intro q hq d rest hread hnone
    obtain ⟨more, hmore⟩ := exists_holdsWithin h hq
    rw [holdsWithin, round, hread, Bool.and_eq_true] at hmore
    simp [hnone] at hmore
  · intro q hq
    obtain ⟨more, hmore⟩ := exists_holdsWithin h hq
    rw [holdsWithin, Bool.and_eq_true] at hmore
    exact hmore.1

/-- A round over memory meets the end, or takes a byte; it has no outcome only where an evaluation
has none. -/
theorem round_cases (s : CharStream) (σ : State)
    (h : ∀ d rest, Input.readDatum σ.files ⟨s, .memory⟩ = (.ok (some d), rest) →
      i.evaluateDatum d σ ≠ none) :
    (∃ t, i.round ⟨s, .memory⟩ σ = some (none, ⟨t, .memory⟩, σ)) ∨
      ∃ r t τ, Takes 1 s t ∧ i.round ⟨s, .memory⟩ σ = some (some r, ⟨t, .memory⟩, τ) := by
  have hread := Input.readDatum_memory σ.files s
  rcases readDatum_cases s with ⟨t, hcall, _⟩ | ⟨d, t, hcall, htakes⟩ | ⟨e, t, hcall, _, htakes⟩
  all_goals
    have hcall' : Reader.readDatum.run s = _ := hcall
    rw [hcall'] at hread
  · refine .inl ⟨t, ?_⟩
    rw [round, hread]
  · obtain ⟨⟨r, τ⟩, hanswer⟩ := Option.ne_none_iff_exists'.mp (h d _ hread)
    refine .inr ⟨r, t, τ, htakes, ?_⟩
    rw [round, hread]
    simp [hanswer]
  · refine .inr ⟨.error e, t.skipLine, σ, htakes.trans (takes_skipLine t), ?_⟩
    rw [round, hread]
    rfl

/-- A dialogue has no more rounds than bytes and the one that meets the end. -/
theorem dialogueFrom_ends {s : CharStream} {σ : State} {rounds : Nat}
    (h : i.Terminates (⟨s, .memory⟩, σ)) (hrounds : s.bytes.length < rounds)
    (seen : List (Except Error Value)) :
    ∃ reports τ, i.dialogueFrom rounds ⟨s, .memory⟩ seen σ = some (reports, τ) ∧
      reports.length ≤ seen.length + s.bytes.length := by
  induction rounds generalizing s σ seen with
  | zero => exact absurd hrounds (Nat.not_lt_zero _)
  | succ rounds ih =>
      rw [dialogueFrom]
      rcases round_cases s σ (h _ .refl) with ⟨t, hround⟩ | ⟨r, t, τ, htakes, hround⟩
      · rw [hround]
        exact ⟨_, _, rfl, by simp⟩
      · rw [hround]
        have hfewer := htakes.length_lt
        obtain ⟨reports, υ, hmore, hlength⟩ := ih (h.follows ⟨r, hround⟩) (by omega) (r :: seen)
        refine ⟨reports, υ, hmore, ?_⟩
        rw [List.length_cons] at hlength
        omega

end Interpreter

namespace Session

/-- One round of the dialogue of a command line, its prompt included. -/
def Follows (t u : Session) : Prop :=
  (t.print prompt).round = some (true, u)

/-- Every evaluation that the dialogue of a command line comes to terminates. -/
def Terminates (t : Session) : Prop :=
  ∀ u, ReflTransGen Follows t u → ∀ d rest,
    u.input.readDatum u.state.files = (.ok (some d), rest) →
      u.interpreter.evaluateDatum d (u.state.print prompt) ≠ none

variable {t u : Session}

theorem Terminates.follows (h : t.Terminates) (hfollows : t.Follows u) : u.Terminates :=
  fun v hv => h v (ReflTransGen.head hfollows hv)

/-- A round of a command line takes from its input what the round of its interpreter takes. -/
theorem round_cases {s : CharStream} (hinput : t.input = ⟨s, .memory⟩) (h : t.Terminates) :
    (∃ u, (t.print prompt).round = some (false, u)) ∨
      ∃ u s', u.input = ⟨s', .memory⟩ ∧ Takes 1 s s' ∧ t.Follows u := by
  have hevaluate := h t .refl
  rw [hinput] at hevaluate
  have hmemory : (t.print prompt).interpreter.round (t.print prompt).input (t.print prompt).state =
      t.interpreter.round ⟨s, .memory⟩ (t.state.print prompt) := by
    rw [← hinput]
    rfl
  rcases Interpreter.round_cases s (t.state.print prompt) hevaluate with
    ⟨s', hround⟩ | ⟨r, s', τ, htakes, hround⟩
  · rw [hround] at hmemory
    exact .inl ⟨_, by rw [round, hmemory]⟩
  · rw [hround] at hmemory
    cases r with
    | ok v => exact .inr ⟨_, s', rfl, htakes, by rw [Follows, round, hmemory]⟩
    | error e => exact .inr ⟨_, s', rfl, htakes, by rw [Follows, round, hmemory]⟩

theorem dialogue_ends {s : CharStream} {rounds : Nat} (hinput : t.input = ⟨s, .memory⟩)
    (h : t.Terminates) (hrounds : s.bytes.length < rounds) : ∃ u, t.dialogue rounds = some u := by
  induction rounds generalizing t s with
  | zero => exact absurd hrounds (Nat.not_lt_zero _)
  | succ rounds ih =>
      rw [dialogue]
      rcases round_cases hinput h with ⟨u, hround⟩ | ⟨u, s', hinput', htakes, hround⟩
      · rw [hround]
        exact ⟨u, rfl⟩
      · have hfewer := htakes.length_lt
        rw [show (t.print prompt).round = some (true, u) from hround]
        exact ih hinput' (h.follows hround) (by omega)

end Session

/-- On all bytes a call of the reader returns, for no bound beyond its own makes a difference; if it
does not meet the end, it takes bytes off the front, also when it complains; and where a call has
met the end, all later ones do, whatever lines are dropped in between.  So a dialogue has no more
rounds with something to report than there are bytes, and ends if the evaluations terminate that it
comes to. -/
theorem reading_ends :
    (∀ s bound, boundFor s ≤ bound → topLevel bound s = readDatum s) ∧
    (∀ s, (readDatum s).1 ≠ .ok none →
      ∃ taken, taken ≠ [] ∧ s.bytes = taken ++ (readDatum s).2.bytes) ∧
    (∀ s e, (readDatum s).1 = .error e → Complaint e) ∧
    (∀ s t, (readDatum s).1 = .ok none → ReflTransGen Call (readDatum s).2 t →
      (readDatum t).1 = .ok none) ∧
    (∀ (i : Interpreter) (s : CharStream) (σ : State), i.Terminates (⟨s, .memory⟩, σ) →
      ∀ rounds, s.bytes.length < rounds →
        ∃ reports τ, i.dialogueFrom rounds ⟨s, .memory⟩ [] σ = some (reports, τ) ∧
          reports.length ≤ s.bytes.length) ∧
    (∀ (t : Session) (s : CharStream), t.input = ⟨s, .memory⟩ → t.Terminates →
      ∀ rounds, s.bytes.length < rounds → ∃ u, t.dialogue rounds = some u) := by
  refine ⟨fun s bound => topLevel_eq_readDatum, ?_, ?_, ?_, ?_, ?_⟩
  · intro s hanswer
    have htakes : Takes 1 s (readDatum s).2 := by
      rcases readDatum_cases s with ⟨t, hcall, _⟩ | ⟨d, t, hcall, htakes⟩ | ⟨e, t, hcall, _, htakes⟩
      · rw [hcall] at hanswer
        exact absurd rfl hanswer
      · rw [hcall]
        exact htakes
      · rw [hcall]
        exact htakes
    obtain ⟨taken, htaken, hbytes⟩ := htakes.bytes_eq
    exact ⟨taken, List.length_pos_iff.mp htaken, hbytes⟩
  · intro s e herror
    rcases readDatum_cases s with ⟨t, hcall, _⟩ | ⟨d, t, hcall, _⟩ | ⟨e', t, hcall, hcomplaint, _⟩
    all_goals
      rw [hcall] at herror
      cases herror
    exact hcomplaint
  · intro s t hend hcalls
    rcases readDatum_cases s with ⟨s', hcall, hended⟩ | ⟨d, s', hcall, _⟩ | ⟨e, s', hcall, _⟩
    all_goals
      rw [hcall] at hend hcalls
      cases hend
    rw [(hended.calls hcalls).readDatum]
  · intro i s σ hterminates rounds hrounds
    obtain ⟨reports, τ, hrun, hlength⟩ := i.dialogueFrom_ends hterminates hrounds []
    exact ⟨reports, τ, hrun, by simpa using hlength⟩
  · intro t s hinput hterminates rounds hrounds
    exact Session.dialogue_ends hinput hterminates hrounds

/-- A line that is no text, a definition with a stray parenthesis behind it, and the name that was
defined: there are 18 bytes, and 4 rounds with something to report, 2 of them a failure. -/
theorem reading_ends_stray_bytes :
    let i : Interpreter := ⟨Evaluator.eval 2 2, ⟨0⟩, 0⟩
    let s : State := { State.initial .empty with environments := #[.empty] }
    let input : Input := .ofBytes (255 :: newlineByte :: encode "(define x 1) )\nx")
    i.Terminates (input, s) ∧
    ∃ reports τ, i.dialogueFrom 19 input [] s = some (reports, τ) ∧ reports.length ≤ 18 ∧
      reports.map Except.toOption =
        [none, some (.unspecified ⟨7⟩), none, some (.number ⟨1⟩ 1)] := by
  intro i s input
  have hcheck : i.holdsWithin (fun _ => true) 5 (input, s) = true := by decide +kernel
  have hterminates : i.Terminates (input, s) := (Interpreter.holdsWithin_sound hcheck).1
  obtain ⟨reports, τ, hrun, hfewer⟩ :=
    reading_ends.2.2.2.2.1 i input.stream s hterminates 19 (by decide +kernel)
  have hrun' : i.dialogueFrom 19 input [] s = some (reports, τ) := hrun
  have hreports : (i.dialogueFrom 19 input [] s).map (fun out => out.1.map Except.toOption) =
      some [none, some (.unspecified ⟨7⟩), none, some (.number ⟨1⟩ 1)] := by decide +kernel
  rw [hrun'] at hreports
  have hatmost : reports.length ≤ 18 := Nat.le_trans hfewer (by decide +kernel)
  exact ⟨hterminates, reports, τ, hrun, hatmost, Option.some.inj hreports⟩

end TinyLisp
