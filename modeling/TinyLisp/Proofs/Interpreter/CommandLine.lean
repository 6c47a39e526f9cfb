import TinyLisp.Proofs.Environments.Initial
import TinyLisp.Proofs.Interpreter.Drivers

/-!
The command line from its arguments to its output.  What a session does is told by its interpreter
alone: the files it loads and the rounds it takes, each with what was put out meanwhile, lead from one
state to the next whatever failed before.  Main statement: `command_line_carries_on`.
-/

namespace TinyLisp

open CharStream Evaluator Reader
open Relation (ReflTransGen)

/-- What came of loading a file or of a round of a dialogue, and what was put out meanwhile. -/
structure Turn where
  result : Except Error Value
  printed : String
  events : List Event

namespace Turn

/-- What came of work that was begun with nothing put out. -/
def of (r : Except Error Value) (s : State) : Turn :=
  ⟨r, s.console, s.events.reverse⟩

/-- How a value is shown on standard output. -/
def answer (t : Turn) : String :=
  match t.result with
  | .ok v => v.text ++ "\n"
  | .error _ => ""

/-- What is on standard error: the events that are shown, and one report if there was a failure. -/
def errors (verbosity : Verbosity) (origin : String) (t : Turn) : String :=
  verbosity.render t.events ++
    match t.result with
    | .ok _ => ""
    | .error e => origin ++ e.message ++ "\n"

/-- What loading files puts on standard output. -/
def loadsOutput (loads : List (String × Turn)) : String :=
  String.join (loads.map fun load => load.2.printed)

def loadsErrors (verbosity : Verbosity) (loads : List (String × Turn)) : String :=
  String.join (loads.map fun load => load.2.errors verbosity ("error loading " ++ load.1 ++ ": "))

/-- What the rounds of a dialogue put on standard output, with the prompts for them. -/
def roundsOutput (turns : List Turn) : String :=
  String.join (turns.map fun turn => prompt ++ turn.printed ++ turn.answer)

def roundsErrors (verbosity : Verbosity) (turns : List Turn) : String :=
  String.join (turns.map (errors verbosity "error: "))

end Turn

namespace Interpreter

/-- Files are loaded one after the other, each in the state that the one before it left, whatever came
of that one. -/
inductive Loads (i : Interpreter) : State → List (String × Turn) → State → Prop where
  | nil (s) : Loads i s [] s
  | cons {s path r u loads t} (hload : i.load path s.silent = some (r, u))
      (hrest : Loads i u loads t) : Loads i s ((path, .of r u) :: loads) t

/-- Rounds of a dialogue follow each other in the same way. -/
inductive Converses (i : Interpreter) : Input × State → List Turn → Input × State → Prop where
  | nil (p) : Converses i p [] p
  | cons {p r rest u turns q} (hround : i.round p.1 p.2.silent = some (some r, rest, u))
      (hrest : Converses i (rest, u) turns q) : Converses i p (.of r u :: turns) q

variable {i : Interpreter} {p q : Input × State} {input : Input} {s s' t : State} {path : String}

/-- An interpreter starts with nothing on standard output. -/
theorem start_console {limits : Limits} {tracing : Bool} {files : FileSystem}
    (hstart : start limits tracing (.initial files) = (i, s)) : s.console = "" := by
  obtain ⟨hmade, -⟩ := Situation.interpreter_start hstart
  obtain ⟨b, n, hrun, -⟩ := State.installPacks_apply [.arithmetic, .lists, .system, .ports]
    { State.initial files with tracing := tracing }
  rw [State.initialEnvironment_eq, hrun] at hmade
  rw [← (Prod.mk.inj hmade).2]
  rfl

theorem start_detached {limits : Limits} {tracing : Bool} {s₀ : State}
    (hstart : start limits tracing s₀ = (i, s)) : Detached i.evaluate := by
  rw [Situation.interpreter_start_eq hstart]
  exact eval_detached _ _

/-! ### Loading -/

/-- A file that is not found is reported as being loaded, and nothing else happens. -/
theorem load_of_not_located {cause : IoError} (h : s.files.locate path = .error cause) :
    i.load path s = some (.error (.io cause), s.report (.loading path)) := by
  simp only [load, Run.bind_apply, Run.modify_apply, Run.get_apply, State.files_report, h]
  rfl

/-- Whether files can be loaded in order, and `P` holds of what they leave. -/
def canLoad (i : Interpreter) (P : State → Bool) : List String → State → Bool
  | [], s => P s
  | path :: paths, s =>
      match i.load path s.silent with
      | none => false
      | some (_, u) => canLoad i P paths u

/-- Files that are seen to be loaded can be loaded, each when it comes up, and leave what was seen. -/
theorem canLoad_sound {P : State → Bool} {paths : List String} (h : i.canLoad P paths s = true) :
    (∀ loads path more u, paths = loads.map Prod.fst ++ path :: more → i.Loads s loads u →
      i.load path u.silent ≠ none) ∧
    ∀ loads u, loads.map Prod.fst = paths → i.Loads s loads u → P u = true := by
  induction paths generalizing s with
  | nil =>
      refine ⟨fun loads path more u hsplit _ => ?_, fun loads u hpaths hloads => ?_⟩
      · cases List.append_eq_nil_iff.mp hsplit.symm |>.2
      · obtain rfl := List.map_eq_nil_iff.mp hpaths
        cases hloads
        exact h
  | cons path paths ih =>
      rw [canLoad] at h
      cases hload : i.load path s.silent with
      | none =>
          rw [hload] at h
          cases h
      | some answer =>
          rw [hload] at h
          obtain ⟨hmore, hleft⟩ := ih h
          refine ⟨fun loads path' more u hsplit hloads => ?_, fun loads u hpaths hloads => ?_⟩
          · cases hloads with
            | nil =>
                cases hsplit
                rw [hload]
                exact Option.some_ne_none _
            | cons hfirst hrest =>
                obtain ⟨rfl, hothers⟩ := List.cons_eq_cons.mp hsplit
                rw [hload] at hfirst
                cases hfirst
                exact hmore _ _ _ _ hothers hrest
          · cases hloads with
            | nil => cases hpaths
            | cons hfirst hrest =>
                obtain ⟨rfl, hothers⟩ := List.cons_eq_cons.mp hpaths
                rw [hload] at hfirst
                cases hfirst
                exact hleft _ _ hothers hrest

/-- A run over an input fails as its rounds do. -/
theorem evaluateInput_eq_error_iff {e : Error} :
    i.evaluateInput input s = some (.error e, t) ↔
      ∃ (vs : List Value) (rest : Input), vs.length < i.rounds ∧
        i.Rounds (input, s) (vs.map .ok ++ [.error e]) (rest, t) := by
  have houtcome (report : Report) (u : State) :
      report.outcome u = (.error e, t) ↔ report = ⟨report.values, some e⟩ ∧ u = t := by
    obtain ⟨vs, failure⟩ := report
    constructor
    · intro h
      rcases failure with _ | e'
      · rw [Report.outcome] at h
        cases hlast : vs.getLast? <;> rw [hlast] at h <;> cases h
      · cases h
        exact ⟨rfl, rfl⟩
    · rintro ⟨hfailure, rfl⟩
      cases hfailure
      rfl
  rw [evaluateInput, Option.map_eq_some_iff]
  constructor
  · rintro ⟨⟨report, u⟩, hrun, hanswer⟩
    obtain ⟨hreport, rfl⟩ := (houtcome report u).mp hanswer
    rw [hreport] at hrun
    obtain ⟨hlength, rest, hrounds⟩ := run_eq_some_iff_rounds.mp hrun
    exact ⟨_, rest, hlength, hrounds⟩
  · rintro ⟨vs, rest, hlength, hrounds⟩
    exact ⟨_, run_eq_some_iff_rounds.mpr ⟨hlength, rest, hrounds⟩, (houtcome _ t).mpr ⟨rfl, rfl⟩⟩

/-- A load fails where the file is not found, and where a failure stops the run over it; then all that
was done before the failure stays done. -/
theorem load_eq_error_iff {e : Error} :
    i.load path s = some (.error e, t) ↔
      (∃ cause, s.files.locate path = .error cause ∧ e = .io cause ∧
        t = s.report (.loading path)) ∨
      ∃ (file : Path) (node : Node) (vs : List Value) (rest : Input),
        s.files.locate path = .ok (file, node) ∧ vs.length < i.rounds ∧
        i.Rounds (.ofNode file node, s.report (.loading path)) (vs.map .ok ++ [.error e])
          (rest, t) := by
  cases hlocate : s.files.locate path with
  | error cause =>
      rw [load_of_not_located hlocate]
      constructor
      · intro h
        cases h
        exact .inl ⟨cause, rfl, rfl, rfl⟩
      · rintro (⟨_, hcause, rfl, rfl⟩ | ⟨_, _, _, _, hlocated, _⟩)
        · cases hcause
          rfl
        · cases hlocated
  | ok located =>
      obtain ⟨file, node⟩ := located
      rw [load_of_located hlocate, evaluateInput_eq_error_iff]
      constructor
      · rintro ⟨vs, rest, hlength, hrounds⟩
        exact .inr ⟨file, node, vs, rest, rfl, hlength, hrounds⟩
      · rintro (⟨_, hcause, _⟩ | ⟨_, _, vs, rest, hlocated, hlength, hrounds⟩)
        · cases hcause
        · cases hlocated
          exact ⟨vs, rest, hlength, hrounds⟩

/-- A file that is not modified while it is read is loaded to an end if its evaluations terminate. -/
theorem load_ends {file : Path} {content : List UInt8}
    (hlocate : s.files.locate path = .ok (file, .file content))
    (hcontent : ∀ (vs : List Value) q,
      i.Rounds (.ofBytes content, s.report (.loading path)) (vs.map .ok) q →
        q.2.files.content file = content)
    (hterminates : i.Terminates (.ofBytes content, s.report (.loading path)))
    (hrounds : content.length < i.rounds) : i.load path s ≠ none := by
  obtain ⟨reports, u, hdialogue, _⟩ := i.dialogueFrom_ends hterminates hrounds []
  obtain ⟨report, t, hrun⟩ := exists_run_of_dialogue hdialogue
  have hsame := runFrom_of_buffers (Input.buffers_ofNode file content) hcontent i.rounds []
  rw [load_of_located hlocate, evaluateInput, run, hsame]
  rw [run] at hrun
  exact fun hnone => by
    rw [show i.runFrom i.rounds ⟨.ofBytes content, .memory⟩ [] (s.report (.loading path)) = _
      from hrun] at hnone
    cases hnone

/-! ### Reading to the end -/

/-- A round over memory stays there, and when it meets the end there is no byte left. -/
theorem round_coherent {stream : CharStream} {rest : Input} {o : Option (Except Error Value)}
    (h : stream.Coherent) (hround : i.round ⟨stream, .memory⟩ s = some (o, rest, t)) :
    ∃ later, rest = ⟨later, .memory⟩ ∧ later.Coherent ∧ (o = none → t = s ∧ later.bytes = []) := by
  have hcoherent := readDatum_coherent h
  rw [round, Input.readDatum_memory] at hround
  rcases readDatum_cases stream with ⟨later, hcall, hended⟩ | ⟨d, later, hcall, _⟩ |
    ⟨e, later, hcall, _, _⟩
  all_goals
    rw [hcall] at hcoherent
    rw [show Reader.readDatum.run stream = _ from hcall] at hround
  · cases hround
    have hbytes : later.bytes = [] := by
      rw [CharStream.bytes, hended.line, hcoherent hended.exhausted]
      rfl
    exact ⟨later, rfl, hcoherent, fun _ => ⟨rfl, hbytes⟩⟩
  · obtain ⟨answer, _, hanswer⟩ := Option.map_eq_some_iff.mp hround
    cases hanswer
    exact ⟨later, rfl, hcoherent, fun hnone => by cases hnone⟩
  · cases hround
    exact ⟨later.skipLine, rfl, hcoherent, fun hnone => by cases hnone⟩

theorem Converses.coherent {turns : List Turn} (h : i.Converses p turns q) {stream : CharStream}
    (hp : p.1 = ⟨stream, .memory⟩) (hcoherent : stream.Coherent) :
    ∃ later, q.1 = ⟨later, .memory⟩ ∧ later.Coherent := by
  induction h generalizing stream with
  | nil p => exact ⟨stream, hp, hcoherent⟩
  | cons hround _ ih =>
      rw [hp] at hround
      obtain ⟨later, rfl, hlater, _⟩ := round_coherent hcoherent hround
      exact ih rfl hlater

/-! ### What has been put out makes no difference -/

section Silent

variable (hi : Detached i.evaluate)

include hi

theorem evaluateDatum_eq_none_of_silent {d : Datum} (h : i.evaluateDatum d s = none)
    (hs : s'.silent = s.silent) : i.evaluateDatum d s' = none := by
  have hevaluate := evaluateDatum_detached hi d s.console s.events s.silent
  have hevaluate' := evaluateDatum_detached hi d s'.console s'.events s'.silent
  rw [State.preceded_silent, h, eq_comm, Option.map_eq_none_iff] at hevaluate
  rw [State.preceded_silent, hs, hevaluate] at hevaluate'
  exact hevaluate'

theorem Terminates.of_silent (h : i.Terminates (input, s)) (hs : s'.silent = s.silent) :
    i.Terminates (input, s') := by
  intro q hq d rest hread hnone
  obtain ⟨rs, hrounds⟩ := reflTransGen_follows_iff.mp hq
  obtain ⟨t, hrounds', hsilent⟩ := hrounds.of_silent hi hs.symm
  have hfiles : t.silent.files = q.2.silent.files := by rw [hsilent]
  refine h (q.1, t) (reflTransGen_follows_iff.mpr ⟨rs, hrounds'⟩) d rest ?_
    (evaluateDatum_eq_none_of_silent hi hnone hsilent)
  rw [show t.files = q.2.files from hfiles]
  exact hread

end Silent

end Interpreter

/-! ### Sessions -/

/-- A session stands where its interpreter does, but for what is put out; it has put out these texts
and has no events to show. -/
structure Session.At (i : Interpreter) (verbosity : Verbosity) (p : Input × State)
    (output errors : String) (t : Session) : Prop where
  interpreter : t.interpreter = i
  verbosity : t.verbosity = verbosity
  input : t.input = p.1
  silent : t.state.silent = p.2.silent
  console : t.state.console = output
  events : t.state.events = []
  errors : t.errors = errors

namespace Session

open Interpreter Turn

variable {i : Interpreter} {verbosity : Verbosity} {input rest : Input} {s u : State}
  {output errors : String} {t t' : Session}

theorem At.state_eq (h : t.At i verbosity (input, s) output errors) :
    t.state = s.silent.preceded output [] := by
  have hstate := State.preceded_silent t.state
  rw [h.silent, h.console, h.events] at hstate
  exact hstate.symm

theorem At.print (h : t.At i verbosity (input, s) output errors) (text : String) :
    (t.print text).At i verbosity (input, s) (output ++ text) errors :=
  { h with console := congrArg (· ++ text) h.console }

/-- After work that was begun with nothing to show, its events are shown. -/
theorem at_showEvents (hstate : t.state = u.preceded output []) :
    t.showEvents.At t.interpreter t.verbosity (t.input, u) (output ++ u.console)
      (t.errors ++ t.verbosity.render u.events.reverse) where
  interpreter := rfl
  verbosity := rfl
  input := rfl
  silent := by
    rw [← State.silent_preceded output [] u, ← hstate]
    rfl
  console := by
    rw [showEvents, hstate]
    rfl
  events := rfl
  errors := by
    rw [showEvents, hstate]
    simp [State.preceded]

/-- A failure is one report more on standard error. -/
theorem at_complain (hstate : t.state = u.preceded output []) (origin : String) (e : Error) :
    (t.complain (origin ++ e.message)).At t.interpreter t.verbosity (t.input, u)
      (output ++ u.console)
      (t.errors ++ (Turn.of (.error e) u).errors t.verbosity origin) := by
  have hshown := at_showEvents hstate
  refine { hshown with errors := ?_ }
  change t.showEvents.errors ++ (origin ++ e.message) ++ "\n" = _
  rw [hshown.errors]
  simp only [Turn.errors, Turn.of, String.append_assoc]

theorem at_shown (hstate : t.state = u.preceded output []) (r : Except Error Value) :
    (t.shown r).At t.interpreter t.verbosity (t.input, u)
      (output ++ u.console ++ (Turn.of r u).answer)
      (t.errors ++ (Turn.of r u).errors t.verbosity "error: ") := by
  cases r with
  | ok v =>
      simpa [Turn.errors, Turn.answer, Turn.of, shown] using
        (at_showEvents hstate).print (v.text ++ "\n")
  | error e => simpa [Turn.answer, Turn.of, shown] using at_complain hstate "error: " e

/-! ### Loading files -/

section Loading

variable (hi : Detached i.evaluate) {path : String} {paths : List String}
  (h : t.At i verbosity (input, s) output errors)

include hi h

theorem At.load_of_none (hload : i.load path s.silent = none) : t.load path = none := by
  have hdetached := load_detached hi path output [] s.silent
  rw [← h.state_eq, hload, ← h.interpreter] at hdetached
  rw [load, hdetached]
  rfl

/-- Whatever comes of loading a file, the session goes on. -/
theorem At.load_of_some {r : Except Error Value} (hload : i.load path s.silent = some (r, u)) :
    ∃ t', t.load path = some t' ∧ t'.At i verbosity (input, u)
      (output ++ u.console)
      (errors ++ (Turn.of r u).errors verbosity ("error loading " ++ path ++ ": ")) := by
  have hdetached := load_detached hi path output [] s.silent
  rw [← h.state_eq, hload, ← h.interpreter] at hdetached
  obtain ⟨rfl, rfl, rfl, -, -, -, rfl⟩ := h
  rw [load, hdetached]
  cases r with
  | ok v =>
      refine ⟨_, rfl, ?_⟩
      simpa [Turn.errors, Turn.of] using
        at_showEvents (t := { t with state := u.preceded output [] }) rfl
  | error e =>
      exact ⟨_, rfl, at_complain (t := { t with state := u.preceded output [] }) rfl
        ("error loading " ++ path ++ ": ") e⟩

/-- A session that has loaded files stands where its interpreter does after loading them. -/
theorem At.loads (hloaded : paths.foldlM load t = some t') :
    ∃ loads u, i.Loads s loads u ∧ loads.map Prod.fst = paths ∧
      t'.At i verbosity (input, u) (output ++ loadsOutput loads)
        (errors ++ loadsErrors verbosity loads) := by
  induction paths generalizing t s output errors with
  | nil =>
      cases hloaded
      exact ⟨[], s, .nil s, rfl, by simpa [loadsOutput, loadsErrors] using h⟩
  | cons path paths ih =>
      cases hload : i.load path s.silent with
      | none =>
          rw [List.foldlM_cons, h.load_of_none hi hload] at hloaded
          cases hloaded
      | some answer =>
          obtain ⟨r, u⟩ := answer
          obtain ⟨t₁, hfirst, ht₁⟩ := h.load_of_some hi hload
          rw [List.foldlM_cons, hfirst] at hloaded
          obtain ⟨loads, v, hloads, rfl, ht'⟩ := ih ht₁ hloaded
          refine ⟨_, v, .cons hload hloads, rfl, ?_⟩
          simpa [loadsOutput, loadsErrors, Turn.of, String.append_assoc] using ht'

/-- Files can be loaded if each that comes up can be. -/
theorem At.exists_loads (hterminates : ∀ loads path more u,
      paths = loads.map Prod.fst ++ path :: more → i.Loads s loads u →
        i.load path u.silent ≠ none) :
    ∃ t', paths.foldlM load t = some t' := by
  induction paths generalizing t s output errors with
  | nil => exact ⟨t, rfl⟩
  | cons path paths ih =>
      obtain ⟨⟨r, u⟩, hload⟩ :=
        Option.ne_none_iff_exists'.mp (hterminates [] path paths s rfl (.nil s))
      obtain ⟨t₁, hfirst, ht₁⟩ := h.load_of_some hi hload
      rw [List.foldlM_cons, hfirst]
      refine ih ht₁ fun loads path' more v hpaths hloads => ?_
      exact hterminates (_ :: loads) path' more v (by rw [hpaths]; rfl) (.cons hload hloads)

end Loading

/-! ### The dialogue -/

section Dialogue

variable (hi : Detached i.evaluate) (h : t.At i verbosity (input, s) output errors)

include hi h

/-- A round over a session, its prompt included, is one of its interpreter. -/
theorem At.round_eq :
    (t.print prompt).round = (i.round input s.silent).map fun (o, rest, u) =>
      let t' := { t with input := rest, state := u.preceded (output ++ prompt) [] }
      match o with
      | none => (false, t'.print "\n")
      | some r => (true, t'.shown r) := by
  have hdetached := round_preceded hi (output ++ prompt) [] input s.silent
  rw [← (h.print prompt).state_eq, ← h.interpreter] at hdetached
  have hinput : (t.print prompt).input = input := h.input
  rw [Session.round_eq, hinput, show (t.print prompt).interpreter = t.interpreter from rfl, hdetached,
    Option.map_map, h.interpreter]
  rfl

/-- Whatever a round reports, the session goes on. -/
theorem At.round_of_some {r : Except Error Value}
    (hround : i.round input s.silent = some (some r, rest, u)) :
    ∃ t', (t.print prompt).round = some (true, t') ∧ t'.At i verbosity (rest, u)
      (output ++ (prompt ++ u.console ++ (Turn.of r u).answer))
      (errors ++ (Turn.of r u).errors verbosity "error: ") := by
  have hround' := h.round_eq hi
  rw [hround] at hround'
  refine ⟨_, hround', ?_⟩
  obtain ⟨rfl, rfl, -, -, -, -, rfl⟩ := h
  have hshown :=
    at_shown (t := { t with input := rest, state := u.preceded (output ++ prompt) [] }) rfl r
  simpa only [String.append_assoc] using hshown

/-- A session that has held a dialogue has taken the rounds that its interpreter takes to the end of
the input. -/
theorem At.dialogue {rounds : Nat} (hdialogue : t.dialogue rounds = some t') :
    ∃ turns q rest v, i.Converses (input, s) turns q ∧
      i.round q.1 q.2.silent = some (none, rest, v) ∧
      t'.state.console = output ++ roundsOutput turns ++ prompt ++ v.console ++ "\n" ∧
      t'.errors = errors ++ roundsErrors verbosity turns ∧ t'.state.files = v.files := by
  induction rounds generalizing t input s output errors with
  | zero => cases hdialogue
  | succ rounds ih =>
      rw [Session.dialogue] at hdialogue
      cases hround : i.round input s.silent with
      | none =>
          rw [h.round_eq hi, hround] at hdialogue
          cases hdialogue
      | some answer =>
          obtain ⟨o, rest, v⟩ := answer
          cases o with
          | none =>
              rw [h.round_eq hi, hround] at hdialogue
              cases hdialogue
              refine ⟨[], (input, s), rest, v, .nil _, hround, ?_, ?_, rfl⟩
              · simp [Session.print, State.print, State.preceded, roundsOutput]
              · exact h.errors.trans (by simp [roundsErrors])
          | some r =>
              obtain ⟨t₁, hfirst, ht₁⟩ := h.round_of_some hi hround
              rw [hfirst] at hdialogue
              obtain ⟨turns, q, last, w, hturns, hend, houtput, herrors, hfiles⟩ := ih ht₁ hdialogue
              refine ⟨_, q, last, w, .cons hround hturns, hend, ?_, ?_, hfiles⟩
              · simpa [roundsOutput, Turn.of, String.append_assoc] using houtput
              · simpa [roundsErrors, Turn.of, String.append_assoc] using herrors

end Dialogue

/-- A session has put out nothing but its first events before anything is loaded or read. -/
theorem start_at {limits : Limits} {debug : Bool} {files : FileSystem}
    (hstart : Interpreter.start limits debug (.initial files) = (i, s)) {o : Options}
    (hdebug : o.debug = debug) (input : Input) :
    (start limits verbosity o files input).At i verbosity (input, s) ""
      (verbosity.render s.events.reverse) := by
  subst hdebug
  have hstate : s = s.preceded "" [] := by simp [State.preceded]
  have hshown := at_showEvents (t := ⟨i, verbosity, s, input, "", []⟩) hstate
  rw [start, StateT.run, hstart]
  simpa [start_console hstart] using hshown

end Session

namespace Options

/-- The arguments that are no flags, in order. -/
def paths (args : List String) : List String :=
  args.filter fun arg => !isDebug arg && !isNoRepl arg

/-- What the flags and the paths among the arguments ask for. -/
def asked (args : List String) : Options :=
  ⟨args.any isDebug, !args.any isNoRepl, paths args⟩

/-- Without a call for help, that is all that is asked for. -/
theorem parse_eq {args : List String} (h : args.any isHelp = false) :
    parse args = some (asked args) := by
  rw [parse, h, if_neg Bool.false_ne_true, foldl_add]
  simp [plain, asked, paths]

end Options

section CommandLine

open Interpreter Turn

variable {limits : Limits} {verbosity : Verbosity} {files : FileSystem} {stdin : List UInt8}
  {args : List String} {i : Interpreter} {s : State}

theorem runCommandLine_of_help (h : args.any Options.isHelp = true) :
    runCommandLine limits verbosity args files stdin = some ⟨0, helpText, "", files⟩ := by
  rw [runCommandLine, Options.parse, if_pos h]

theorem runCommandLine_eq (h : args.any Options.isHelp = false) :
    runCommandLine limits verbosity args files stdin =
      ((Session.start limits verbosity (.asked args) files (.ofBytes stdin)).perform
        (.asked args)).map fun t => ⟨0, t.state.console, t.errors, t.state.files⟩ := by
  rw [runCommandLine, Options.parse_eq h]
  dsimp only
  split
  · next hnone => rw [hnone]; rfl
  · next hsome => rw [hsome]; rfl

theorem perform_eq (t : Session) (o : Options) :
    t.perform o = (o.files.foldlM Session.load t).bind fun t =>
      if o.repl then t.dialogue t.interpreter.rounds else some t :=
  rfl

variable (hhelp : args.any Options.isHelp = false)
  (hstart : Interpreter.start limits (args.any Options.isDebug) (.initial files) = (i, s))

include hstart

/-- The session in which a command line does its work, before it has done anything. -/
theorem begun_at (verbosity : Verbosity) (stdin : List UInt8) :
    (Session.start limits verbosity (.asked args) files (.ofBytes stdin)).At i verbosity
      (.ofBytes stdin, s) "" (verbosity.render s.events.reverse) :=
  Session.start_at hstart rfl _

include hhelp

/-- Whatever a command line leaves, it was left by loading all files and, unless it is not wanted, by a
dialogue to the end of the input. -/
theorem told_by_interpreter {outcome : Outcome}
    (hrun : runCommandLine limits verbosity args files stdin = some outcome) :
    outcome.exitCode = 0 ∧ ∃ loads u,
      i.Loads s loads u ∧ loads.map Prod.fst = Options.paths args ∧
      (args.any Options.isNoRepl = true →
        outcome.output = loadsOutput loads ∧
        outcome.errors = verbosity.render s.events.reverse ++ loadsErrors verbosity loads ∧
        outcome.files = u.files) ∧
      (args.any Options.isNoRepl = false → ∃ turns q rest,
        i.Converses (.ofBytes stdin, u) turns q ∧
        i.round q.1 q.2.silent = some (none, rest, q.2.silent) ∧ rest.stream.bytes = [] ∧
        outcome.output = loadsOutput loads ++ roundsOutput turns ++ prompt ++ "\n" ∧
        outcome.errors = verbosity.render s.events.reverse ++ loadsErrors verbosity loads ++
          roundsErrors verbosity turns ∧
        outcome.files = q.2.files) := by
  have hi := start_detached hstart
  rw [runCommandLine_eq hhelp] at hrun
  obtain ⟨t', hperform, rfl⟩ := Option.map_eq_some_iff.mp hrun
  refine ⟨rfl, ?_⟩
  rw [perform_eq] at hperform
  obtain ⟨t, hloaded, hrest⟩ := Option.bind_eq_some_iff.mp hperform
  obtain ⟨loads, u, hloads, hpaths, ht⟩ := (begun_at hstart verbosity stdin).loads hi hloaded
  rw [String.empty_append] at ht
  refine ⟨loads, u, hloads, hpaths, fun hrepl => ?_, fun hrepl => ?_⟩
  · rw [if_neg (by simp [Options.asked, hrepl])] at hrest
    obtain rfl : t = t' := Option.some.inj hrest
    refine ⟨ht.console, ht.errors, ?_⟩
    have hfiles : t.state.silent.files = u.silent.files := by rw [ht.silent]
    exact hfiles
  · rw [if_pos (by simp [Options.asked, hrepl])] at hrest
    obtain ⟨turns, q, rest, v, hturns, hend, houtput, herrors, hfiles⟩ := ht.dialogue hi hrest
    obtain ⟨later, hlater, hcoherent⟩ := hturns.coherent rfl (coherent_ofBytes stdin)
    have hend' := hend
    rw [hlater] at hend'
    obtain ⟨last, rfl, -, hlast⟩ := round_coherent hcoherent hend'
    obtain ⟨rfl, hbytes⟩ := hlast rfl
    refine ⟨turns, q, _, hturns, hend, hbytes, ?_, herrors, hfiles⟩
    rw [houtput]
    simp [State.silent]

/-- A command line comes to an end if the files can be loaded and the evaluations of its dialogue
terminate. -/
theorem exists_outcome
    (hloads : ∀ loads path more u, Options.paths args = loads.map Prod.fst ++ path :: more →
      i.Loads s loads u → i.load path u.silent ≠ none)
    (hdialogue : args.any Options.isNoRepl = false → stdin.length < limits.rounds ∧
      ∀ loads u, loads.map Prod.fst = Options.paths args → i.Loads s loads u →
        i.Terminates (.ofBytes stdin, u)) :
    ∃ outcome, runCommandLine limits verbosity args files stdin = some outcome := by
  have hi := start_detached hstart
  have hat := begun_at hstart verbosity stdin
  obtain ⟨t, hloaded⟩ := hat.exists_loads hi hloads
  obtain ⟨loads, u, hloads, hpaths, ht⟩ := hat.loads hi hloaded
  have hperform : ∃ t',
      (Session.start limits verbosity (.asked args) files (.ofBytes stdin)).perform (.asked args) =
        some t' := by
    rw [perform_eq, show (Options.asked args).files.foldlM Session.load _ = some t from hloaded,
      Option.bind_some]
    cases hrepl : args.any Options.isNoRepl with
    | true => exact ⟨t, if_neg (by simp [Options.asked, hrepl])⟩
    | false =>
        rw [if_pos (by simp [Options.asked, hrepl])]
        obtain ⟨hlength, hterminates⟩ := hdialogue hrepl
        have hends := (hterminates loads u hpaths hloads).of_silent hi ht.silent
        rw [← ht.interpreter] at hends
        have hrounds : t.interpreter.rounds = limits.rounds := by
          rw [ht.interpreter, Situation.interpreter_start_eq hstart]
        rw [← hrounds] at hlength
        obtain ⟨reports, v, hreports, -⟩ :=
          t.interpreter.dialogueFrom_ends (s := .ofBytes stdin) hends hlength []
        have hinput : t.input = ⟨.ofBytes stdin, .memory⟩ := ht.input
        rw [← hinput] at hreports
        obtain ⟨-, t', -, hdialogue, -⟩ :=
          Session.exists_dialogue (ht.interpreter ▸ hi) hreports
        exact ⟨t', hdialogue⟩
  obtain ⟨t', hperform⟩ := hperform
  exact ⟨_, by rw [runCommandLine_eq hhelp]; exact congrArg (Option.map _) hperform⟩

end CommandLine

/-- The command line.  Whoever asks for help has the help text and nothing else happens.  Otherwise
all that matters of the arguments is whether a flag for tracing occurs, whether one against the
dialogue does, and the paths in their order.  Whatever is left in the end, the exit code is 0, and it
was left as follows: the files were loaded in order, each in the state that the one before it left,
whatever came of that one, with one report on standard error for each that failed; then, unless it was
not wanted, rounds of a dialogue were taken, whatever each came to, until no byte of standard input was
left, with one report for each that failed.  A load fails where its file is not found, and where
something in the file cannot be read or evaluated; all that was evaluated before stays done.  And
there is an end if the loads and the evaluations of the dialogue terminate, as loads do if their
evaluations do and their file is not modified meanwhile. -/
theorem command_line_carries_on (limits : Limits) (verbosity : Verbosity) (files : FileSystem)
    (stdin : List UInt8) :
    (∀ args, args.any Options.isHelp = true →
      runCommandLine limits verbosity args files stdin = some ⟨0, helpText, "", files⟩) ∧
    (∀ args args', args.any Options.isHelp = args'.any Options.isHelp →
      args.any Options.isDebug = args'.any Options.isDebug →
      args.any Options.isNoRepl = args'.any Options.isNoRepl →
      Options.paths args = Options.paths args' →
      runCommandLine limits verbosity args files stdin =
        runCommandLine limits verbosity args' files stdin) ∧
    ∀ args i s, args.any Options.isHelp = false →
      Interpreter.start limits (args.any Options.isDebug) (.initial files) = (i, s) →
      (∀ outcome, runCommandLine limits verbosity args files stdin = some outcome →
        outcome.exitCode = 0 ∧ ∃ loads u,
          i.Loads s loads u ∧ loads.map Prod.fst = Options.paths args ∧
          (args.any Options.isNoRepl = true →
            outcome.output = Turn.loadsOutput loads ∧
            outcome.errors =
              verbosity.render s.events.reverse ++ Turn.loadsErrors verbosity loads ∧
            outcome.files = u.files) ∧
          (args.any Options.isNoRepl = false → ∃ turns q rest,
            i.Converses (.ofBytes stdin, u) turns q ∧
            i.round q.1 q.2.silent = some (none, rest, q.2.silent) ∧ rest.stream.bytes = [] ∧
            outcome.output =
              Turn.loadsOutput loads ++ Turn.roundsOutput turns ++ prompt ++ "\n" ∧
            outcome.errors = verbosity.render s.events.reverse ++
              Turn.loadsErrors verbosity loads ++ Turn.roundsErrors verbosity turns ∧
            outcome.files = q.2.files)) ∧
      (∀ path u e v, i.load path u = some (.error e, v) ↔
        (∃ cause, u.files.locate path = .error cause ∧ e = .io cause ∧
          v = u.report (.loading path)) ∨
        ∃ (file : Path) (node : Node) (vs : List Value) (rest : Input),
          u.files.locate path = .ok (file, node) ∧ vs.length < limits.rounds ∧
          i.Rounds (.ofNode file node, u.report (.loading path)) (vs.map .ok ++ [.error e])
            (rest, v)) ∧
      ((∀ loads path more u, Options.paths args = loads.map Prod.fst ++ path :: more →
          i.Loads s loads u → i.load path u.silent ≠ none) →
        (args.any Options.isNoRepl = false → stdin.length < limits.rounds ∧
          ∀ loads u, loads.map Prod.fst = Options.paths args → i.Loads s loads u →
            i.Terminates (.ofBytes stdin, u)) →
        ∃ outcome, runCommandLine limits verbosity args files stdin = some outcome) ∧
      ∀ path u file content, u.files.locate path = .ok (file, .file content) →
        (∀ (vs : List Value) q,
          i.Rounds (.ofBytes content, u.report (.loading path)) (vs.map .ok) q →
            q.2.files.content file = content) →
        i.Terminates (.ofBytes content, u.report (.loading path)) →
        content.length < limits.rounds → i.load path u ≠ none := by
  refine ⟨fun args hhelp => ?_, fun args args' hhelp hdebug hrepl hpaths => ?_,
    fun args i s hhelp hstart => ?_⟩
  · exact runCommandLine_of_help hhelp
  · cases hasked : args.any Options.isHelp with
    | true => rw [runCommandLine_of_help hasked, runCommandLine_of_help (hhelp.symm.trans hasked)]
    | false =>
        rw [runCommandLine_eq hasked, runCommandLine_eq (hhelp.symm.trans hasked), Options.asked,
          Options.asked, hdebug, hrepl, hpaths]
  · have hrounds : i.rounds = limits.rounds := by rw [Situation.interpreter_start_eq hstart]
    refine ⟨fun outcome hrun => told_by_interpreter hhelp hstart hrun, fun path u e v => ?_,
      exists_outcome hhelp hstart, fun path u file content hlocate hcontent hterminates hlength => ?_⟩
    · rw [← hrounds]
      exact Interpreter.load_eq_error_iff
    · rw [← hrounds] at hlength
      exact Interpreter.load_ends hlocate hcontent hterminates hlength

/-- The first file fails behind its definition, which the second one uses; standard input has a name
that is not bound before one that is.  Two reports on standard error, one value, and three prompts;
the flag may as well come first. -/
theorem command_line_carries_on_midway :
    let first := encode "(define x 1) (car x)\n(define y 5)"
    let second := encode "(define z (+ x 1))"
    let files : FileSystem := ⟨[(["a"], .file first), (["b"], .file second)]⟩
    let stdin := encode "y\nz"
    let args := ["a", "-d", "b"]
    let begun := Interpreter.start ⟨3, 40⟩ (args.any Options.isDebug) (.initial files)
    args.any Options.isHelp = false ∧
    runCommandLine ⟨3, 40⟩ .off args files stdin =
      runCommandLine ⟨3, 40⟩ .off ["-d", "a", "b"] files stdin ∧
    begun.1.load "a" begun.2 ≠ none ∧
    ∃ outcome loads u turns q,
      runCommandLine ⟨3, 40⟩ .off args files stdin = some outcome ∧ outcome.exitCode = 0 ∧
      begun.1.Loads begun.2 loads u ∧ loads.map Prod.fst = ["a", "b"] ∧
      begun.1.Converses (.ofBytes stdin, u) turns q ∧
      outcome.output = Turn.loadsOutput loads ++ Turn.roundsOutput turns ++ prompt ++ "\n" ∧
      outcome.errors = Turn.loadsErrors .off loads ++ Turn.roundsErrors .off turns ∧
      outcome.output = "vole> vole> 2\nvole> \n" ∧
      outcome.errors =
        "error loading a: car: expected a pair, got 1\nerror: Symbol y is undefined\n" := by
  intro first second files stdin args begun
  obtain ⟨-, hflags, hrest⟩ := command_line_carries_on ⟨3, 40⟩ .off files stdin
  have hhelp : args.any Options.isHelp = false := by decide
  have hsame := hflags args ["-d", "a", "b"] (by decide) (by decide) (by decide) (by decide)
  obtain ⟨htold, -, hends, hload⟩ := hrest args begun.1 begun.2 hhelp Prod.mk.eta.symm
  have hfirst : begun.1.load "a" begun.2 ≠ none := by
    have hcheck : begun.1.holdsWithin (fun q => q.2.files.content ["a"] == first) 4
        (.ofBytes first, begun.2.report (.loading "a")) = true := by decide +kernel
    obtain ⟨hterminates, hunmodified⟩ := Interpreter.unmodified_of_holdsWithin hcheck
    exact hload _ _ _ _ (by decide +kernel) hunmodified hterminates (by decide +kernel)
  have hcheck : begun.1.canLoad
      (fun u => begun.1.holdsWithin (fun _ => true) 3 (.ofBytes stdin, u)) ["a", "b"] begun.2 =
        true := by decide +kernel
  obtain ⟨hloads, hleft⟩ := Interpreter.canLoad_sound hcheck
  obtain ⟨outcome, hrun⟩ := hends hloads fun _ => ⟨by decide +kernel, fun loads u hpaths hu =>
    (Interpreter.holdsWithin_sound (hleft loads u hpaths hu)).1⟩
  obtain ⟨hcode, loads, u, hu, hpaths, -, htold⟩ := htold outcome hrun
  obtain ⟨turns, q, -, hturns, -, -, houtput, herrors, -⟩ := htold (by decide)
  have hoff : Verbosity.off.render begun.2.events.reverse = "" := by
    simp [Verbosity.render, Verbosity.shows]
  rw [hoff, String.empty_append] at herrors
  have htexts : (runCommandLine ⟨3, 40⟩ .off args files stdin).map
      (fun outcome => (outcome.output, outcome.errors)) = some ("vole> vole> 2\nvole> \n",
        "error loading a: car: expected a pair, got 1\nerror: Symbol y is undefined\n") := by
    decide +kernel
  rw [hrun, Option.map_some, Option.some.injEq, Prod.mk.injEq] at htexts
  exact ⟨hhelp, hsame, hfirst, outcome, loads, u, turns, q, hrun, hcode, hu, hpaths, hturns, houtput,
    herrors, htexts⟩

end TinyLisp
