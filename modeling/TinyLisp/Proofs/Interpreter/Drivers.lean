import TinyLisp.Proofs.Evaluation.Output
import TinyLisp.Proofs.Interpreter.Composition
import TinyLisp.Proofs.Interpreter.Dialogue
import TinyLisp.Proofs.Ports.Buffering

/-!
The ways to run programs.  A run to the first failure takes the rounds that a dialogue takes, over
the content of a file as over the file, and a command line takes them too, with what it puts out in
between.  Main statement: `drivers_agree`.
-/

namespace TinyLisp

open CharStream Evaluator Reader Scan Text
open Relation (ReflTransGen)

namespace Interpreter

/-- The rounds of a dialogue that report `rs` lead from one input and state to others. -/
inductive Rounds (i : Interpreter) :
    Input × State → List (Except Error Value) → Input × State → Prop where
  | nil (p) : Rounds i p [] p
  | cons {p q q' r rs} (hround : i.round p.1 p.2 = some (some r, q)) (hrest : Rounds i q rs q') :
      Rounds i p (r :: rs) q'

variable {i : Interpreter} {p q : Input × State} {input rest : Input} {s t : State}
  {rs rs' : List (Except Error Value)} {rounds : Nat}

/-! ### Rounds in a row -/

theorem reflTransGen_follows_iff : ReflTransGen i.Follows p q ↔ ∃ rs, i.Rounds p rs q := by
  constructor
  · intro h
    induction h using ReflTransGen.head_induction_on with
    | refl => exact ⟨[], .nil q⟩
    | head hfollows _ ih =>
        obtain ⟨r, hround⟩ := hfollows
        obtain ⟨rs, hrest⟩ := ih
        exact ⟨r :: rs, .cons hround hrest⟩
  · rintro ⟨rs, h⟩
    induction h with
    | nil p => exact .refl
    | cons hround _ ih => exact .head ⟨_, hround⟩ ih

theorem rounds_append_iff :
    i.Rounds p (rs ++ rs') q ↔ ∃ u, i.Rounds p rs u ∧ i.Rounds u rs' q := by
  induction rs generalizing p with
  | nil =>
      constructor
      · exact fun h => ⟨p, .nil p, h⟩
      · rintro ⟨u, hnone, h⟩
        cases hnone
        exact h
  | cons r rs ih =>
      constructor
      · intro h
        cases h with
        | cons hround h =>
            obtain ⟨u, hfirst, hrest⟩ := ih.mp h
            exact ⟨u, .cons hround hfirst, hrest⟩
      · rintro ⟨u, hfirst, hrest⟩
        cases hfirst with
        | cons hround hfirst => exact .cons hround (ih.mpr ⟨u, hfirst, hrest⟩)

/-- Rounds that come to the end have begun as all rounds from there begin. -/
theorem Rounds.prefix_of_end {q' : Input × State} (h : i.Rounds p rs q) (h' : i.Rounds p rs' q')
    (hend : i.round q'.1 q'.2 = some (none, rest, t)) :
    ∃ more, rs' = rs ++ more ∧ i.Rounds q more q' := by
  induction h generalizing rs' with
  | nil p => exact ⟨rs', rfl, h'⟩
  | cons hround _ ih =>
      cases h' with
      | nil =>
          rw [hround] at hend
          cases hend
      | cons hround' hrest' =>
          rw [hround] at hround'
          cases hround'
          obtain ⟨more, rfl, hmore⟩ := ih hrest'
          exact ⟨more, rfl, hmore⟩

/-- A list of reports holds values up to its end or up to the first failure. -/
theorem reports_cases (rs : List (Except Error Value)) :
    (∃ vs : List Value, rs = vs.map .ok) ∨
      ∃ (vs : List Value) (e : Error) (more : List (Except Error Value)),
        rs = vs.map .ok ++ .error e :: more := by
  induction rs with
  | nil => exact .inl ⟨[], rfl⟩
  | cons r rs ih =>
      cases r with
      | error e => exact .inr ⟨[], e, rs, rfl⟩
      | ok v =>
          rcases ih with ⟨vs, rfl⟩ | ⟨vs, e, more, rfl⟩
          · exact .inl ⟨v :: vs, rfl⟩
          · exact .inr ⟨v :: vs, e, more, rfl⟩

/-! ### Runs and dialogues by rounds -/

/-- A run goes on after a round that reports a value, and ends with any other. -/
theorem runFrom_succ (rounds : Nat) (input : Input) (seen : List Value) (s : State) :
    i.runFrom (rounds + 1) input seen s =
      match i.round input s with
      | none => none
      | some (none, _, t) => some (⟨seen.reverse, none⟩, t)
      | some (some (.error e), _, t) => some (⟨seen.reverse, some e⟩, t)
      | some (some (.ok v), rest, t) => i.runFrom rounds rest (v :: seen) t := by
  rw [runFrom, round]
  rcases input.readDatum s.files with ⟨_ | _ | d, rest⟩
  · rfl
  · rfl
  · dsimp only
    rcases i.evaluateDatum d s with _ | ⟨_ | v, t⟩ <;> rfl

/-- A run takes rounds as long as they report values, and one more. -/
theorem runFrom_eq_some_iff {seen vs : List Value} {failure : Option Error} :
    i.runFrom rounds input seen s = some (⟨vs, failure⟩, t) ↔
      ∃ ws q last, vs = seen.reverse ++ ws ∧ ws.length < rounds ∧
        i.Rounds (input, s) (ws.map .ok) q ∧
        i.round q.1 q.2 = some (failure.map .error, last, t) := by
  induction rounds generalizing input seen s with
  | zero =>
      constructor
      · exact nofun
      · rintro ⟨_, _, _, _, hlength, _⟩
        exact absurd hlength (Nat.not_lt_zero _)
  | succ rounds ih =>
      rw [runFrom_succ]
      constructor
      · intro h
        split at h
        · cases h
        · next last u hround =>
            cases h
            exact ⟨[], (input, s), last, by simp, Nat.succ_pos _, .nil _, hround⟩
        · next e last u hround =>
            cases h
            exact ⟨[], (input, s), last, by simp, Nat.succ_pos _, .nil _, hround⟩
        · next v rest u hround =>
            obtain ⟨ws, q, last, rfl, hlength, hrounds, hlast⟩ := ih.mp h
            exact ⟨v :: ws, q, last, by simp, Nat.succ_lt_succ hlength, .cons hround hrounds, hlast⟩
      · rintro ⟨ws, q, last, rfl, hlength, hrounds, hlast⟩
        cases ws with
        | nil =>
            cases hrounds
            rw [hlast]
            cases failure <;> simp
        | cons v ws =>
            rw [List.map_cons] at hrounds
            cases hrounds with
            | cons hround hrounds =>
                rw [hround]
                exact ih.mpr ⟨ws, q, last, by simp, Nat.lt_of_succ_lt_succ hlength, hrounds, hlast⟩

/-- A dialogue takes rounds as long as they report something, and one more. -/
theorem dialogueFrom_eq_some_iff {seen reports : List (Except Error Value)} :
    i.dialogueFrom rounds input seen s = some (reports, t) ↔
      ∃ rs q last, reports = seen.reverse ++ rs ∧ rs.length < rounds ∧
        i.Rounds (input, s) rs q ∧ i.round q.1 q.2 = some (none, last, t) := by
  induction rounds generalizing input seen s with
  | zero =>
      constructor
      · exact nofun
      · rintro ⟨_, _, _, _, hlength, _⟩
        exact absurd hlength (Nat.not_lt_zero _)
  | succ rounds ih =>
      rw [dialogueFrom]
      constructor
      · intro h
        split at h
        · cases h
        · next last u hround =>
            cases h
            exact ⟨[], (input, s), last, by simp, Nat.succ_pos _, .nil _, hround⟩
        · next r rest u hround =>
            obtain ⟨rs, q, last, rfl, hlength, hrounds, hlast⟩ := ih.mp h
            exact ⟨r :: rs, q, last, by simp, Nat.succ_lt_succ hlength, .cons hround hrounds, hlast⟩
      · rintro ⟨rs, q, last, rfl, hlength, hrounds, hlast⟩
        cases hrounds with
        | nil =>
            rw [hlast]
            simp
        | cons hround hrounds =>
            rw [hround]
            exact ih.mpr ⟨_, q, last, by simp, Nat.lt_of_succ_lt_succ hlength, hrounds, hlast⟩

/-- A run to the end is a dialogue that reports values alone. -/
theorem run_eq_some_iff_dialogue {vs : List Value} :
    i.run input s = some (⟨vs, none⟩, t) ↔ i.dialogue input s = some (vs.map .ok, t) := by
  rw [run, runFrom_eq_some_iff, dialogue, dialogueFrom_eq_some_iff]
  constructor
  · rintro ⟨ws, q, last, rfl, hlength, hrounds, hlast⟩
    exact ⟨_, q, last, by simp, by simpa using hlength, hrounds, hlast⟩
  · rintro ⟨rs, q, last, hreports, hlength, hrounds, hlast⟩
    rw [List.reverse_nil, List.nil_append] at hreports
    subst hreports
    exact ⟨vs, q, last, by simp, by simpa using hlength, hrounds, hlast⟩

/-- A run that a failure stops has taken the rounds up to that failure. -/
theorem run_eq_some_iff_rounds {vs : List Value} {e : Error} :
    i.run input s = some (⟨vs, some e⟩, t) ↔
      vs.length < i.rounds ∧ ∃ rest, i.Rounds (input, s) (vs.map .ok ++ [.error e]) (rest, t) := by
  rw [run, runFrom_eq_some_iff]
  constructor
  · rintro ⟨ws, q, last, rfl, hlength, hrounds, hlast⟩
    exact ⟨hlength, last, rounds_append_iff.mpr ⟨q, hrounds, .cons hlast (.nil _)⟩⟩
  · rintro ⟨hlength, rest, hrounds⟩
    obtain ⟨q, hrounds, hlast⟩ := rounds_append_iff.mp hrounds
    cases hlast with
    | cons hround hnone =>
        cases hnone
        exact ⟨vs, q, rest, by simp, hlength, hrounds, hround⟩

/-- A dialogue after which a run that a failure stops goes on as it began. -/
theorem dialogue_of_run_failure {vs : List Value} {e : Error} {u : State}
    (h : i.run input s = some (⟨vs, some e⟩, t)) (hdialogue : i.dialogue input s = some (rs, u)) :
    ∃ more, rs = vs.map .ok ++ .error e :: more := by
  obtain ⟨_, rest, hrounds⟩ := run_eq_some_iff_rounds.mp h
  obtain ⟨rs, q, last, rfl, _, hall, hend⟩ := dialogueFrom_eq_some_iff.mp hdialogue
  obtain ⟨more, rfl, _⟩ := hrounds.prefix_of_end hall hend
  exact ⟨more, by simp⟩

/-- A dialogue has an outcome only where the run has one. -/
theorem exists_run_of_dialogue (h : i.dialogue input s = some (rs, t)) :
    ∃ report u, i.run input s = some (report, u) := by
  obtain ⟨rs, q, last, rfl, hlength, hrounds, hend⟩ := dialogueFrom_eq_some_iff.mp h
  rcases reports_cases rs with ⟨vs, rfl⟩ | ⟨vs, e, more, rfl⟩
  · exact ⟨⟨vs, none⟩, t, run_eq_some_iff_dialogue.mpr h⟩
  · rw [List.append_cons] at hrounds
    obtain ⟨⟨rest, u⟩, hfirst, _⟩ := rounds_append_iff.mp hrounds
    refine ⟨⟨vs, some e⟩, u, run_eq_some_iff_rounds.mpr ⟨?_, rest, hfirst⟩⟩
    simp only [List.length_append, List.length_map] at hlength
    omega

/-! ### Files -/

section Files

variable {path : Path} {content : List UInt8} {stream : CharStream}

/-- Over a file as over its content a round comes to the same, and both have come as far. -/
theorem round_of_buffers (h : Input.Buffers path content stream input)
    (hcontent : s.files.content path = content) :
    (i.round input s = none ∧ i.round ⟨stream, .memory⟩ s = none) ∨
      ∃ o rest later t, i.round input s = some (o, rest, t) ∧
        i.round ⟨stream, .memory⟩ s = some (o, ⟨later, .memory⟩, t) ∧
        Input.Buffers path content later rest := by
  obtain ⟨hresult, hbuffers⟩ := h.readDatum hcontent
  have hmemory := Input.readDatum_memory s.files stream
  change Input.readDatum s.files ⟨stream, .memory⟩ =
    ((Reader.readDatum stream).1, ⟨(Reader.readDatum stream).2, .memory⟩) at hmemory
  rw [round, round, hmemory]
  revert hresult hbuffers
  rcases input.readDatum s.files with ⟨r, rest⟩
  rintro rfl
  rcases Reader.readDatum stream with ⟨_ | _ | d, later⟩
  all_goals intro hbuffers
  · exact .inr ⟨_, _, _, _, rfl, rfl, hbuffers.skipLine⟩
  · exact .inr ⟨_, _, _, _, rfl, rfl, hbuffers⟩
  · dsimp only
    rcases i.evaluateDatum d s with _ | ⟨r, t⟩
    · exact .inl ⟨rfl, rfl⟩
    · exact .inr ⟨_, _, _, _, rfl, rfl, hbuffers⟩

/-- A run over a file that stays as it is is the run over its content. -/
theorem runFrom_of_buffers (h : Input.Buffers path content stream input)
    (hcontent : ∀ (vs : List Value) q, i.Rounds (⟨stream, .memory⟩, s) (vs.map .ok) q →
      q.2.files.content path = content) (rounds : Nat) (seen : List Value) :
    i.runFrom rounds input seen s = i.runFrom rounds ⟨stream, .memory⟩ seen s := by
  induction rounds generalizing stream input s seen with
  | zero => rfl
  | succ rounds ih =>
      rw [runFrom_succ, runFrom_succ]
      rcases round_of_buffers (i := i) h (hcontent [] _ (.nil _)) with
        ⟨hnone, hnone'⟩ | ⟨o, rest, later, t, hround, hround', hbuffers⟩
      · rw [hnone, hnone']
      · rw [hround, hround']
        rcases o with _ | _ | v
        · rfl
        · rfl
        · exact ih hbuffers (fun vs q hrounds => hcontent (v :: vs) q (.cons hround' hrounds)) _

/-- A file that stays as it is wherever a dialogue is seen to come stays so while a run lasts. -/
theorem unmodified_of_holdsWithin
    (h : i.holdsWithin (fun q => q.2.files.content path == content) rounds p = true) :
    i.Terminates p ∧
      ∀ (vs : List Value) q, i.Rounds p (vs.map .ok) q → q.2.files.content path = content := by
  obtain ⟨hterminates, hsame⟩ := holdsWithin_sound h
  refine ⟨hterminates, fun vs q hrounds => ?_⟩
  exact beq_iff_eq.mp (hsame q (reflTransGen_follows_iff.mpr ⟨_, hrounds⟩))

/-- What is found is run over, once the file is reported. -/
theorem load_of_located {written : String} {node : Node}
    (hlocate : s.files.locate written = .ok (path, node)) :
    i.load written s = i.evaluateInput (.ofNode path node) (s.report (.loading written)) := by
  simp only [load, Run.bind_apply, Run.modify_apply, Run.get_apply, State.files_report, hlocate]

/-- Loading a file that stays as it is is evaluating its content, once the file is reported. -/
theorem load_eq {written text : String}
    (hlocate : s.files.locate written = .ok (path, .file (encode text)))
    (hcontent : ∀ (vs : List Value) q,
      i.Rounds (.ofText text, s.report (.loading written)) (vs.map .ok) q →
        q.2.files.content path = encode text) :
    i.load written s = i.evaluateText text (s.report (.loading written)) := by
  have hrun :=
    runFrom_of_buffers (Input.buffers_ofNode path (encode text)) hcontent i.rounds []
  rw [load_of_located hlocate, evaluateText, evaluateInput, evaluateInput, run, run, hrun]
  rfl

end Files

/-! ### What is put out -/

section Output

variable (hi : Detached i.evaluate)

include hi

theorem runFrom_preceded (console : String) (events : List Event) (seen : List Value) :
    i.runFrom rounds input seen (s.preceded console events) =
      (i.runFrom rounds input seen s).map fun (report, t) =>
        (report, t.preceded console events) := by
  induction rounds generalizing input seen s with
  | zero => rfl
  | succ rounds ih =>
      rw [runFrom_succ, runFrom_succ, round_preceded hi]
      rcases i.round input s with _ | ⟨_ | _ | v, rest, t⟩
      · rfl
      · rfl
      · rfl
      · exact ih (v :: seen)

theorem evaluateInput_detached (input : Input) : Run.Detached (i.evaluateInput input) := by
  intro console events s
  rw [evaluateInput, evaluateInput, run, run, runFrom_preceded hi]
  rcases i.runFrom i.rounds input [] s with _ | ⟨report, t⟩
  · rfl
  · have houtcome : Marking report.outcome := by
      unfold Report.outcome
      split
      · exact .throw _
      · exact .pure _
      · exact .make _
    exact congrArg some (houtcome.detached console events t)

/-- What loading a file comes to does not depend on what was put out before. -/
theorem load_detached (path : String) : Run.Detached (i.load path) := by
  unfold load
  refine Run.Detached.bind (fun _ _ _ => rfl) fun _ =>
    Run.detached_get_bind (fun s => ?_) fun _ _ _ => rfl
  split
  · exact Run.detached_throw _
  · exact evaluateInput_detached hi _

/-- An event reported before a text is evaluated stays where it was reported. -/
theorem evaluateText_report {text : String} {r : Except Error Value} (e : Event)
    (h : i.evaluateText text s = some (r, t)) :
    ∃ events, t.events = events ++ s.events ∧
      i.evaluateText text (s.report e) =
        some (r, { t with events := events ++ e :: s.events }) := by
  let bare : State := { s with events := [] }
  have hbare (events : List Event) : bare.preceded "" events = { s with events := events } := by
    simp [bare, State.preceded]
  have hs := evaluateInput_detached hi (.ofText text) "" s.events bare
  have hreported := evaluateInput_detached hi (.ofText text) "" (e :: s.events) bare
  rw [hbare, ← evaluateText] at hs hreported
  rw [show ({ s with events := s.events } : State) = s from rfl, h] at hs
  rw [show ({ s with events := e :: s.events } : State) = s.report e from rfl] at hreported
  obtain ⟨⟨r', t'⟩, hrun, hanswer⟩ := Option.map_eq_some_iff.mp hs.symm
  obtain ⟨rfl, rfl⟩ := (Prod.mk.injEq _ _ _ _).mp hanswer
  refine ⟨t'.events, rfl, ?_⟩
  rw [hreported, hrun]
  rfl

/-- What was put out before makes no difference to a round. -/
theorem round_of_silent {s' : State} {o : Option (Except Error Value)}
    (h : i.round input s = some (o, rest, t)) (hs : s'.silent = s.silent) :
    ∃ t', i.round input s' = some (o, rest, t') ∧ t'.silent = t.silent := by
  have hround := round_preceded hi s.console s.events input s.silent
  have hround' := round_preceded hi s'.console s'.events input s'.silent
  rw [State.preceded_silent, h] at hround
  rw [State.preceded_silent, hs] at hround'
  obtain ⟨⟨o', rest', u⟩, hsilent, hanswer⟩ := Option.map_eq_some_iff.mp hround.symm
  cases hanswer
  rw [hsilent] at hround'
  exact ⟨_, hround', by simp⟩

theorem Rounds.of_silent {s' : State} (h : i.Rounds (input, s) rs (rest, t))
    (hs : s'.silent = s.silent) :
    ∃ t', i.Rounds (input, s') rs (rest, t') ∧ t'.silent = t.silent := by
  generalize hp : (input, s) = p at h
  generalize hq : (rest, t) = q at h
  induction h generalizing input s s' with
  | nil p =>
      obtain ⟨rfl, rfl⟩ := (Prod.mk.injEq _ _ _ _).mp (hp.trans hq.symm)
      exact ⟨s', .nil _, hs⟩
  | @cons p u q r rs hround _ ih =>
      subst hp
      obtain ⟨t', hround', hsilent⟩ := round_of_silent hi hround hs
      obtain ⟨t'', hrest, hlast⟩ := ih hsilent rfl hq
      exact ⟨t'', .cons hround' hrest, hlast⟩

/-- A file that stays as it is while its text is evaluated is loaded with the same outcome. -/
theorem load_of_evaluateText {written text : String} {path : Path} {r : Except Error Value}
    (hlocate : s.files.locate written = .ok (path, .file (encode text)))
    (hcontent : ∀ (vs : List Value) q, i.Rounds (.ofText text, s) (vs.map .ok) q →
      q.2.files.content path = encode text)
    (h : i.evaluateText text s = some (r, t)) :
    ∃ events, t.events = events ++ s.events ∧
      i.load written s =
        some (r, { t with events := events ++ .loading written :: s.events }) := by
  obtain ⟨events, hevents, hreported⟩ := evaluateText_report hi (.loading written) h
  refine ⟨events, hevents, ?_⟩
  rw [load_eq hlocate fun vs q hrounds => ?_, hreported]
  obtain ⟨u, hrounds', hsilent⟩ := hrounds.of_silent hi (State.silent_report _ s).symm
  have hfiles : u.silent.files = q.2.silent.files := by rw [hsilent]
  rw [show q.2.files = u.files from hfiles.symm]
  exact hcontent vs _ hrounds'

end Output

end Interpreter

/-! ### The command line -/

namespace Session

/-- Shows what a round reports: a value on standard output, a failure on standard error. -/
def shown (t : Session) : Except Error Value → Session
  | .ok v => t.showEvents.print (v.text ++ "\n")
  | .error e => t.complain ("error: " ++ e.message)

theorem round_eq (t : Session) :
    t.round = (t.interpreter.round t.input t.state).map fun (o, input, state) =>
      match o with
      | none => (false, { t with input := input, state := state }.print "\n")
      | some r => (true, { t with input := input, state := state }.shown r) := by
  rw [round]
  rcases t.interpreter.round t.input t.state with _ | ⟨_ | _ | v, input, state⟩ <;> rfl

/-- The rounds of a command line that report `rs`, with its prompts and what it shows. -/
inductive Rounds : Session → List (Except Error Value) → Session → Prop where
  | nil (t) : Rounds t [] t
  | cons {t u r rs input state}
      (hround : t.interpreter.round t.input (t.state.print prompt) = some (some r, input, state))
      (hrest : Rounds ({ t with input := input, state := state }.shown r) rs u) :
      Rounds t (r :: rs) u

variable {t u : Session} {r : Except Error Value} {rs : List (Except Error Value)}

@[simp] theorem interpreter_shown : (t.shown r).interpreter = t.interpreter := by
  cases r <;> rfl

@[simp] theorem input_shown : (t.shown r).input = t.input := by
  cases r <;> rfl

@[simp] theorem silent_shown : (t.shown r).state.silent = t.state.silent := by
  cases r <;> rfl

/-- A dialogue takes the rounds that it can take. -/
theorem Rounds.dialogue (h : t.Rounds rs u) (rounds : Nat) :
    t.dialogue (rs.length + rounds) = u.dialogue rounds := by
  induction h with
  | nil t => rw [List.length_nil, Nat.zero_add]
  | @cons t u r rs input state hround _ ih =>
      have hone : (t.print prompt).round =
          some (true, { t with input := input, state := state }.shown r) := by
        rw [round_eq, show (t.print prompt).interpreter.round (t.print prompt).input
          (t.print prompt).state = some (some r, input, state) from hround]
        cases r <;> rfl
      rw [List.length_cons, Nat.add_right_comm, Session.dialogue, hone]
      exact ih

/-- A command line takes the rounds that its interpreter takes. -/
theorem exists_rounds (hi : Detached t.interpreter.evaluate) {s : State} {q : Input × State}
    (h : t.interpreter.Rounds (t.input, s) rs q) (hs : t.state.silent = s.silent) :
    ∃ u, t.Rounds rs u ∧ u.interpreter = t.interpreter ∧ u.input = q.1 ∧
      u.state.silent = q.2.silent := by
  generalize hp : (t.input, s) = p at h
  generalize hinterpreter : t.interpreter = i at h
  induction h generalizing t s with
  | nil p =>
      subst hp
      exact ⟨t, .nil t, hinterpreter, rfl, hs⟩
  | @cons p q q' r rs hround hrest ih =>
      subst hp
      subst hinterpreter
      obtain ⟨state, hround', hsilent⟩ :=
        Interpreter.round_of_silent hi hround ((State.silent_print prompt t.state).trans hs)
      obtain ⟨u, hrounds, hsame, hinput, hstate⟩ :=
        ih (t := { t with input := q.1, state := state }.shown r) (s := q.2) (by simpa using hi)
          (by simpa using hsilent) (by simp) (by simp)
      exact ⟨u, .cons hround' hrounds, hsame, hinput, hstate⟩

/-- The dialogue of a command line is the one of its interpreter, with what is put out in
between. -/
theorem exists_dialogue (hi : Detached t.interpreter.evaluate) {rounds : Nat} {τ : State}
    (h : t.interpreter.dialogueFrom rounds t.input [] t.state = some (rs, τ)) :
    ∃ u v, t.Rounds rs u ∧ t.dialogue rounds = some v ∧ v.state.silent = τ.silent := by
  obtain ⟨rs, q, last, rfl, hlength, hrounds, hend⟩ :=
    Interpreter.dialogueFrom_eq_some_iff.mp h
  obtain ⟨u, htaken, hsame, hinput, hstate⟩ := exists_rounds hi hrounds rfl
  obtain ⟨state, hround, hsilent⟩ :=
    Interpreter.round_of_silent hi hend ((State.silent_print prompt u.state).trans hstate)
  obtain ⟨more, rfl⟩ : ∃ more, rounds = rs.length + (more + 1) := ⟨rounds - rs.length - 1, by omega⟩
  have hone : (u.print prompt).round =
      some (false, { u with input := last, state := state }.print "\n") := by
    rw [round_eq, show (u.print prompt).interpreter.round (u.print prompt).input
      (u.print prompt).state = some (none, last, state) by rw [← hround, ← hsame, ← hinput]; rfl]
    rfl
  refine ⟨u, { u with input := last, state := state }.print "\n", by simpa using htaken, ?_,
    hsilent⟩
  rw [htaken.dialogue, Session.dialogue, hone]

end Session

/-- Running, holding a dialogue, evaluating a text and loading a file agree, also at the command
line.  A run and a dialogue over bytes have outcomes if the evaluations terminate.  A run comes to
its end exactly if the dialogue reports its values and nothing else, in the same state; where a
failure stops it, the dialogue reports its values and the failure, is then in the same state, and
goes on.  A text is evaluated to the failure of its run, or else to the last value.  If evaluation
does not see what was put out, as that by `eval` does not, loading a file that holds a text, and is
not modified while it is read, differs from evaluating the text by one event; and the dialogue of a
command line takes the rounds of a dialogue and leaves its states, but for what is put out. -/
theorem drivers_agree (i : Interpreter) :
    (∀ (bytes : List UInt8) (s : State), i.Terminates (.ofBytes bytes, s) →
      bytes.length < i.rounds →
        (∃ report t, i.run (.ofBytes bytes) s = some (report, t)) ∧
        ∃ reports u, i.dialogue (.ofBytes bytes) s = some (reports, u)) ∧
    (∀ input s vs t, i.run input s = some (⟨vs, none⟩, t) ↔
      i.dialogue input s = some (vs.map .ok, t)) ∧
    (∀ input s vs e t, i.run input s = some (⟨vs, some e⟩, t) →
      (∃ rest, i.Rounds (input, s) (vs.map .ok ++ [.error e]) (rest, t)) ∧
      ∀ reports u, i.dialogue input s = some (reports, u) →
        ∃ more, reports = vs.map .ok ++ .error e :: more) ∧
    (∀ text s vs failure t, i.run (.ofText text) s = some (⟨vs, failure⟩, t) →
      i.evaluateText text s = some (
        match failure, vs.getLast? with
        | some e, _ => (.error e, t)
        | none, some v => (.ok v, t)
        | none, none => (.ok (.unspecified ⟨t.nextMark⟩), t.marked))) ∧
    (Detached i.evaluate →
      (∀ path file text s, s.files.locate path = .ok (file, .file (encode text)) →
        (∀ (vs : List Value) q, i.Rounds (.ofText text, s) (vs.map .ok) q →
          q.2.files.content file = encode text) →
        ∀ r t, i.evaluateText text s = some (r, t) →
          ∃ events, t.events = events ++ s.events ∧
            i.load path s =
              some (r, { t with events := events ++ .loading path :: s.events })) ∧
      ∀ t : Session, t.interpreter = i →
        (∀ rs q, i.Rounds (t.input, t.state) rs q →
          ∃ u, t.Rounds rs u ∧ u.input = q.1 ∧ u.state.silent = q.2.silent) ∧
        ∀ rounds rs s, i.dialogueFrom rounds t.input [] t.state = some (rs, s) →
          ∃ u v, t.Rounds rs u ∧ t.dialogue rounds = some v ∧ v.state.silent = s.silent) ∧
    ∀ depth rounds, Detached (eval depth rounds) := by
  refine ⟨fun bytes s hterminates hrounds => ?_,
    fun _ _ _ _ => Interpreter.run_eq_some_iff_dialogue,
    fun input s vs e t hrun => ⟨?_, fun _ _ => Interpreter.dialogue_of_run_failure hrun⟩,
    fun text s vs failure t hrun => ?_,
    fun hi => ⟨fun path file text s hlocate hcontent r t => ?_, ?_⟩, eval_detached⟩
  · obtain ⟨reports, u, hdialogue, _⟩ := i.dialogueFrom_ends hterminates hrounds []
    exact ⟨Interpreter.exists_run_of_dialogue hdialogue, reports, u, hdialogue⟩
  · exact (Interpreter.run_eq_some_iff_rounds.mp hrun).2
  · rw [Interpreter.evaluateText, Interpreter.evaluateInput, hrun]
    rcases failure with _ | e
    · rcases hlast : vs.getLast? with _ | v
      all_goals
        simp only [Option.map_some, Report.outcome, hlast]
        rfl
    · rfl
  · exact Interpreter.load_of_evaluateText hi hlocate hcontent
  · rintro t rfl
    refine ⟨fun rs q hrounds => ?_, fun rounds rs s => Session.exists_dialogue hi⟩
    obtain ⟨u, htaken, _, hinput, hstate⟩ := Session.exists_rounds hi hrounds rfl
    exact ⟨u, htaken, hinput, hstate⟩

/-- A stray parenthesis stops a run behind the definition of a name and its use, but no dialogue: that
one uses the name again. -/
theorem drivers_agree_stray_parenthesis :
    let text := "(define x 1) (+ x 2))\nx"
    let i : Interpreter := ⟨eval 2 2, ⟨0⟩, 30⟩
    let s : State := { State.initial ⟨[(["a"], .file (encode text))]⟩ with
      nextMark := 1, environments := #[.ofList [("+", .native ⟨0⟩ .sum)]] }
    let e : Error := .malformed .unmatchedClose
    let session : Session := ⟨i, .info, s, .ofText text, "", []⟩
    i.Terminates (.ofText text, s) ∧
    ∃ vs t events rest more u v w,
      i.run (.ofText text) s = some (⟨vs, some e⟩, t) ∧
      i.load "a" s = some (.error e, { t with events := events ++ .loading "a" :: s.events }) ∧
      i.Rounds (.ofText text, s) (vs.map .ok ++ [.error e]) (rest, t) ∧
      i.dialogue (.ofText text) s = some (vs.map .ok ++ .error e :: more, u) ∧
      List.map (fun r : Except Error Value => r.toOption.map Value.text)
        (vs.map .ok ++ .error e :: more) =
          [some "<unspecified>", some "3", none, some "1"] ∧
      session.Rounds (vs.map .ok ++ .error e :: more) v ∧
      session.dialogue 30 = some w ∧ w.state.silent = u.silent := by
  intro text i s e session
  have hcheck : i.holdsWithin (fun q => q.2.files.content ["a"] == encode text) 5
      (.ofText text, s) = true := by decide +kernel
  obtain ⟨hterminates, hunmodified⟩ := Interpreter.unmodified_of_holdsWithin hcheck
  have hfails : (i.run (.ofText text) s).map (fun out => out.1.failure) = some (some e) := by
    decide +kernel
  obtain ⟨⟨⟨vs, failure⟩, t⟩, hrun, rfl⟩ := Option.map_eq_some_iff.mp hfails
  obtain ⟨houtcomes, -, hfailure, htext, houtput, hdetached⟩ := drivers_agree i
  obtain ⟨hload, hsession⟩ := houtput (hdetached 2 2)
  obtain ⟨⟨rest, hrounds⟩, hbegins⟩ := hfailure _ _ _ _ _ hrun
  obtain ⟨-, reports, u, hdialogue⟩ := houtcomes (encode text) s hterminates (by decide +kernel)
  obtain ⟨more, rfl⟩ := hbegins _ _ hdialogue
  obtain ⟨v, w, htaken, hshown, hsilent⟩ := (hsession session rfl).2 _ _ _ hdialogue
  obtain ⟨events, -, hloaded⟩ :=
    hload "a" ["a"] text s rfl hunmodified _ _ (htext _ _ _ _ _ hrun)
  have hreports : (i.dialogue (.ofText text) s).map
      (fun out => out.1.map fun r => r.toOption.map Value.text) =
        some [some "<unspecified>", some "3", none, some "1"] := by decide +kernel
  rw [show i.dialogue (.ofText text) s = _ from hdialogue] at hreports
  exact ⟨hterminates, vs, t, events, rest, more, u, v, w, hrun, hloaded, hrounds, hdialogue,
    Option.some.inj hreports, htaken, hshown, hsilent⟩

end TinyLisp
