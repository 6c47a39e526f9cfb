import TinyLisp.Proofs.Run
import TinyLisp.Proofs.Text.Contents

/-!
Programs one below the other.  What a run makes of a text depends only on the contents of the text,
so a run can be followed on lists of data.  Main statement: `run_newline`, a program below another
one is run as if it were run after it, in the state that the first one left.
-/

namespace TinyLisp

open CharStream Reader Scan Text

/-- A report of a run that went on after others had come to the values `vs`. -/
def Report.after (vs : List Value) (r : Report) : Report :=
  ⟨vs ++ r.values, r.failure⟩

/-- Where a run that went on came to nothing, the result is the one from before. -/
theorem Report.outcome_after (vs : List Value) (r : Report) :
    (r.after vs).outcome =
      if r.values = [] ∧ r.failure = none then (⟨vs, none⟩ : Report).outcome else r.outcome := by
  obtain ⟨values, failure⟩ := r
  cases failure with
  | some e => simp [after, outcome]
  | none =>
      by_cases hempty : values = []
      · simp [after, outcome, hempty]
      · have hlast : (vs ++ values).getLast? = values.getLast? := by
          rw [List.getLast?_append, List.getLast?_eq_some_getLast hempty, Option.some_or]
        rw [if_neg (fun h => hempty h.1)]
        simp only [after, outcome, hlast]

namespace Interpreter

/-- The interpreter with another limit on the expressions that an input may hold. -/
def within (i : Interpreter) (rounds : Nat) : Interpreter :=
  { i with rounds := rounds }

/-- Evaluates data in order, as a run does whose input holds them and then comes to `ending`. -/
def runData (i : Interpreter) (ending : Option Error) :
    Nat → List Datum → List Value → State → Option (Report × State)
  | 0, _, _, _ => none
  | _ + 1, [], seen, s => some (⟨seen.reverse, ending⟩, s)
  | rounds + 1, d :: ds, seen, s =>
      match i.evaluateDatum d s with
      | none => none
      | some (.error e, s) => some (⟨seen.reverse, some e⟩, s)
      | some (.ok v, s) => runData i ending rounds ds (v :: seen) s

variable {i : Interpreter} {ending : Option Error} {rounds : Nat} {ds : List Datum}
  {seen vs : List Value} {s t : State}

/-- A run follows the contents of its text. -/
theorem runFrom_eq_runData {cs : List Char} {stream : CharStream} (h : Contains cs ds ending)
    (hs : stream.Spells cs) :
    i.runFrom rounds ⟨stream, .memory⟩ seen s = i.runData ending rounds ds seen s := by
  induction h generalizing rounds stream seen s with
  | finished hgap =>
      cases rounds with
      | zero => rfl
      | succ rounds =>
          obtain ⟨rest, hread, _⟩ := reads_readDatum_none hgap stream hs
          have hinput : Reader.readDatum.run stream = (.ok none, rest) := hread
          rw [runFrom, Input.readDatum_memory, hinput, runData]
  | unreadable hfails =>
      cases rounds with
      | zero => rfl
      | succ rounds =>
          obtain ⟨rest, hread, _⟩ := hfails stream hs
          have hinput : Reader.readDatum.run stream = (.error _, rest) := hread
          rw [runFrom, Input.readDatum_memory, hinput, runData]
  | datum hgap hd _ ih =>
      cases rounds with
      | zero => rfl
      | succ rounds =>
          obtain ⟨rest, hread, hrest⟩ := reads_readDatum_some hgap hd stream hs
          have hinput : Reader.readDatum.run stream = (.ok (some _), rest) := hread
          rw [runFrom, Input.readDatum_memory, hinput, runData]
          dsimp only
          rcases i.evaluateDatum _ s with _ | ⟨_ | _, _⟩
          · rfl
          · rfl
          · exact ih hrest

/-- The values from before a run do not matter to it. -/
theorem runData_seen (seen : List Value) : i.runData ending rounds ds seen s =
    (i.runData ending rounds ds [] s).map fun (r, t) => (r.after seen.reverse, t) := by
  induction rounds generalizing ds seen s with
  | zero => rfl
  | succ rounds ih =>
      cases ds with
      | nil => simp [runData, Report.after]
      | cons d ds =>
          rw [runData, runData]
          cases i.evaluateDatum d s with
          | none => rfl
          | some answer =>
              obtain ⟨result, t⟩ := answer
              cases result with
              | error e => simp [Report.after]
              | ok v =>
                  simp only
                  rw [ih (v :: seen), ih [v]]
                  simp [Report.after, Function.comp_def]

/-- A run that comes to a report evaluates its first datum, if there is one, and goes on. -/
theorem runData_cons_eq_some {d : Datum} {r : Report} :
    i.runData ending (rounds + 1) (d :: ds) [] s = some (r, t) ↔
      (∃ e, i.evaluateDatum d s = some (.error e, t) ∧ r = ⟨[], some e⟩) ∨
        ∃ v u r', i.evaluateDatum d s = some (.ok v, u) ∧
          i.runData ending rounds ds [] u = some (r', t) ∧ r = r'.after [v] := by
  rw [runData]
  cases i.evaluateDatum d s with
  | none => simp
  | some answer =>
      obtain ⟨result, u⟩ := answer
      cases result with
      | error e =>
          constructor
          · rintro ⟨⟩
            exact .inl ⟨e, rfl, rfl⟩
          · rintro (⟨_, ⟨⟩, rfl⟩ | ⟨_, _, _, ⟨⟩, _⟩)
            rfl
      | ok v =>
          simp only
          rw [runData_seen, Option.map_eq_some_iff]
          constructor
          · rintro ⟨⟨r', t'⟩, hrest, ⟨⟩⟩
            exact .inr ⟨v, u, r', rfl, hrest, rfl⟩
          · rintro (⟨_, ⟨⟩, _⟩ | ⟨_, _, r', ⟨⟩, hrest, rfl⟩)
            exact ⟨(r', t), hrest, rfl⟩

/-- A run over all of some data leaves its state to the run over what follows them. -/
theorem runData_append (h : i.runData ending rounds ds [] s = some (⟨vs, none⟩, t)) :
    ending = none ∧ ∀ (ending' : Option Error) (rounds' : Nat) (ds' : List Datum),
      i.runData ending' (vs.length + rounds') (ds ++ ds') [] s =
        (i.runData ending' rounds' ds' [] t).map fun (r, u) => (r.after vs, u) := by
  induction rounds generalizing ds s vs with
  | zero => cases h
  | succ rounds ih =>
      cases ds with
      | nil =>
          rw [runData, Option.some.injEq, Prod.mk.injEq, Report.mk.injEq] at h
          obtain ⟨⟨rfl, rfl⟩, rfl⟩ := h
          refine ⟨rfl, fun ending' rounds' ds' => ?_⟩
          simp [Report.after]
      | cons d ds =>
          rcases runData_cons_eq_some.mp h with ⟨e, _, hr⟩ | ⟨v, u, r, hd, hrest, hr⟩
          · cases hr
          · obtain ⟨vs', failure⟩ := r
            obtain ⟨rfl, rfl⟩ := (Report.mk.injEq _ _ _ _).mp hr
            obtain ⟨hending, hmore⟩ := ih hrest
            refine ⟨hending, fun ending' rounds' ds' => ?_⟩
            have hlength : (v :: vs').length + rounds' = vs'.length + rounds' + 1 := by
              rw [List.length_cons]
              omega
            rw [List.singleton_append, hlength, List.cons_append, runData, hd]
            simp only
            rw [runData_seen, hmore]
            simp [Report.after, Function.comp_def]

/-- A run that an evaluation stops does not come to what follows. -/
theorem runData_append_of_failure {e : Error}
    (h : i.runData ending rounds ds [] s = some (⟨vs, some e⟩, t)) (hlength : vs.length < ds.length)
    (ending' : Option Error) (ds' : List Datum) :
    i.runData ending' rounds (ds ++ ds') [] s = some (⟨vs, some e⟩, t) := by
  induction rounds generalizing ds s vs with
  | zero => cases h
  | succ rounds ih =>
      cases ds with
      | nil => cases hlength
      | cons d ds =>
          rw [List.cons_append]
          apply runData_cons_eq_some.mpr
          rcases runData_cons_eq_some.mp h with hfails | ⟨v, u, r, hd, hrest, hr⟩
          · exact .inl hfails
          · obtain ⟨vs', failure⟩ := r
            obtain ⟨rfl, rfl⟩ := (Report.mk.injEq _ _ _ _).mp hr
            exact .inr ⟨v, u, _, hd, ih hrest (Nat.lt_of_succ_lt_succ hlength), rfl⟩

/-- How data are evaluated does not depend on how many expressions an input may hold. -/
theorem runData_within (n : Nat) :
    (i.within n).runData ending rounds ds seen s = i.runData ending rounds ds seen s := by
  induction rounds generalizing ds seen s with
  | zero => rfl
  | succ rounds ih =>
      cases ds with
      | nil => rfl
      | cons d ds =>
          have hevaluate : (i.within n).evaluateDatum d s = i.evaluateDatum d s := rfl
          simp only [runData, hevaluate, ih]

/-- A run on a text follows the contents of the text. -/
theorem run_eq_runData {text : String} (h : Contains text.toList ds ending) :
    i.run (.ofText text) s = i.runData ending i.rounds ds [] s :=
  runFrom_eq_runData h (spells_ofText text)

/-- The value of a text is the last one that a run on its contents comes to. -/
theorem evaluateText_of_runData {text : String} {v : Value} (h : Contains text.toList ds none)
    (hrun : i.runData none i.rounds ds [] s = some (⟨vs, none⟩, t)) (hlast : vs.getLast? = some v) :
    i.evaluateText text s = some (.ok v, t) := by
  rw [← run_eq_runData h] at hrun
  rw [evaluateText, evaluateInput, hrun, Option.map_some]
  simp only [Report.outcome, hlast]
  rfl

end Interpreter

/-- Reading a text below one that can be read adds what reading it alone comes to.  Running it below
one that runs to its end is running it alone in the state that the other one left: it meets its
limit, or it adds its values and comes to its failure and its state, and its result is that of the
whole unless it comes to none.  Where an evaluation in the upper text fails, the lower one is not
read. -/
theorem run_newline (a b : String) :
    (∀ xs, readAll a = .ok xs → readAll (a ++ "\n" ++ b) = (readAll b).map (xs ++ ·)) ∧
    (∀ (i : Interpreter) (s t : State) (vs : List Value),
      i.run (.ofText a) s = some (⟨vs, none⟩, t) →
        ∀ rounds,
          (i.within (vs.length + rounds)).run (.ofText (a ++ "\n" ++ b)) s =
            ((i.within rounds).run (.ofText b) t).map fun (r, u) => (r.after vs, u)) ∧
    (∀ (vs : List Value) (r : Report), (r.after vs).outcome =
      if r.values = [] ∧ r.failure = none then (⟨vs, none⟩ : Report).outcome else r.outcome) ∧
    (∀ (i : Interpreter) (s t : State) (vs : List Value) (e : Error) (ds : List Datum)
      (ending : Option Error),
      Contains a.toList ds ending → vs.length < ds.length →
        i.run (.ofText a) s = some (⟨vs, some e⟩, t) →
          i.run (.ofText (a ++ "\n" ++ b)) s = some (⟨vs, some e⟩, t)) := by
  have htext : (a ++ "\n" ++ b).toList = a.toList ++ '\n' :: b.toList := by simp
  refine ⟨fun xs h => readAll_newline h b, ?_, Report.outcome_after, ?_⟩
  · intro i s t vs hrun rounds
    obtain ⟨ds, ending, ha⟩ := exists_contains a.toList
    obtain ⟨ds', ending', hb⟩ := exists_contains b.toList
    rw [Interpreter.run_eq_runData ha] at hrun
    obtain ⟨rfl, happend⟩ := Interpreter.runData_append hrun
    have hboth := ha.newline hb
    rw [← htext] at hboth
    rw [Interpreter.run_eq_runData hboth, Interpreter.run_eq_runData hb]
    rw [Interpreter.runData_within, Interpreter.runData_within]
    exact happend ending' rounds ds'
  · intro i s t vs e ds ending ha hlength hrun
    obtain ⟨ds', ending', hboth⟩ := ha.exists_newline b.toList
    rw [← htext] at hboth
    rw [Interpreter.run_eq_runData ha] at hrun
    rw [Interpreter.run_eq_runData hboth]
    exact Interpreter.runData_append_of_failure hrun hlength ending' ds'

/-- A comment that ends with its text leaves what follows below to be read and run. -/
theorem run_newline_comment :
    readAll ("#t ; one" ++ "\n" ++ "#f") = (readAll "#f").map ([.boolean true] ++ ·) ∧
      ∃ (i : Interpreter) (s t : State) (v : Value),
        i.run (.ofText "#t ; one") s = some (⟨[v], none⟩, t) ∧
        (i.within (1 + 2)).run (.ofText ("#t ; one" ++ "\n" ++ "#f")) s =
          ((i.within 2).run (.ofText "#f") t).map fun (r, u) => (r.after [v], u) := by
  have htext : "#t ; one".toList = ['#', 't', ' ', ';', ' ', 'o', 'n', 'e'] := by decide
  have hnote : '\n' ∉ [' ', 'o', 'n', 'e'] := by decide
  have hcontains : Contains "#t ; one".toList [.boolean true] none := by
    rw [htext]
    exact .datum (.none _) (.boolean true _)
      (.finished (.blank rfl (.lastComment hnote)))
  let i : Interpreter := ⟨Evaluator.eval 1 1, ⟨0⟩, 2⟩
  let s := State.initial .empty
  have hrun : i.run (.ofText "#t ; one") s = some (⟨[.boolean ⟨0⟩ true], none⟩, s.marked) := by
    rw [Interpreter.run_eq_runData hcontains]
    rfl
  exact ⟨(run_newline _ _).1 _ hcontains.readAll, i, s, s.marked, .boolean ⟨0⟩ true, hrun,
    (run_newline _ _).2.1 _ _ _ _ hrun 2⟩

end TinyLisp
