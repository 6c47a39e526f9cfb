import TinyLisp.Proofs.Procedures.Blame
import TinyLisp.Proofs.Run
import TinyLisp.Proofs.Text.Progress
import TinyLisp.Proofs.Text.RoundTrip

/-!
What calls do with ports.  A call is settled by its arguments: either they are refused, whatever the
state, or they make it one of six acts.  Main statements: `call_of_act?` and `call_refused`.
-/

namespace TinyLisp

variable {α β : Type}

namespace State

/-- The object with the contents of a datum is made of marks alone. -/
theorem makeDatum_marks (d : Datum) :
    ∃ f : Nat → Value × Nat, ∀ s,
      makeDatum d s = ((f s.nextMark).1, { s with nextMark := (f s.nextMark).2 }) := by
  induction d with
  | pair first rest ihFirst ihRest =>
      obtain ⟨f, hf⟩ := ihFirst
      obtain ⟨g, hg⟩ := ihRest
      refine ⟨fun n => (.pair ⟨(f (g n).2).2⟩ (f (g n).2).1 (g n).1, (f (g n).2).2 + 1), fun s => ?_⟩
      have hparts : makeDatum (.pair first rest) s =
          (.pair ⟨(makeDatum first (makeDatum rest s).2).2.nextMark⟩
              (makeDatum first (makeDatum rest s).2).1 (makeDatum rest s).1,
            (makeDatum first (makeDatum rest s).2).2.marked) := rfl
      rw [hparts, hg, hf]
      rfl
  | number n => exact ⟨fun k => (.number ⟨k⟩ n, k + 1), fun _ => rfl⟩
  | string text => exact ⟨fun k => (.string ⟨k⟩ text, k + 1), fun _ => rfl⟩
  | symbol x => exact ⟨fun k => (.symbol ⟨k⟩ x, k + 1), fun _ => rfl⟩
  | boolean b => exact ⟨fun k => (.boolean ⟨k⟩ b, k + 1), fun _ => rfl⟩
  | nil => exact ⟨fun k => (.nil ⟨k⟩, k + 1), fun _ => rfl⟩

theorem makeRead_marks (o : Option Datum) :
    ∃ f : Nat → Value × Nat, ∀ s,
      makeRead o s = ((f s.nextMark).1, { s with nextMark := (f s.nextMark).2 }) := by
  cases o with
  | none => exact ⟨fun k => (.eof ⟨k⟩, k + 1), fun _ => rfl⟩
  | some d => exact makeDatum_marks d

/-- The state with one more port, at the place `s.ports.size`. -/
def attached (s : State) (p : Port) : State :=
  { s with ports := s.ports.push p }

theorem files_report (e : Event) (s : State) : (s.report e).files = s.files := rfl

section Sides

variable {s : State} {id : PortId}

theorem readPort_of_none (h : (s.port id).input = none) : readPort id s = (none, s) := by
  simp only [readPort, h]

/-- Reading from a port reads on in its input. -/
theorem readPort_of_some {input : Input} (h : (s.port id).input = some input) :
    readPort id s = (some (input.readDatum s.files).1,
      s.setPort id { s.port id with input := some (input.readDatum s.files).2 }) := by
  simp only [readPort, h]

theorem writePort_of_none {text : String} (h : (s.port id).output = none) :
    writePort id text s = (false, s) := by
  simp only [writePort, h]

/-- Writing to a port sends the text out and remembers it. -/
theorem writePort_of_some {text : String} {sink : Sink} (h : (s.port id).output = some sink) :
    writePort id text s = (true, (deliver text sink s).2.setPort id
      { s.port id with
        output := some (deliver text sink s).1, written := (s.port id).written ++ text }) := by
  simp only [writePort, h]

end Sides

end State

/-- What a call does with ports once its arguments are in order. -/
inductive PortAct where
  | openInput (name : String)
  | openOutput (name : String)
  | close (id : PortId)
  | read (id : PortId)
  | output (text : String) (target : Option PortId)
  | attach
  deriving DecidableEq, Repr

/-- What an act comes to, and the state it leaves. -/
def PortAct.carryOut : PortAct → Action Value
  | .openInput name => fun s =>
      match s.files.locate name with
      | .error cause => (.error (.io cause), s.report (.openingInput name))
      | .ok (path, node) =>
          (.ok (.port ⟨s.nextMark⟩ ⟨s.ports.size⟩),
            ((s.report (.openingInput name)).attached (.ofInput (.ofNode path node))).marked)
  | .openOutput name => fun s =>
      match s.files.create name with
      | .error cause => (.error (.io cause), s.report (.openingOutput name))
      | .ok (path, files) =>
          (.ok (.port ⟨s.nextMark⟩ ⟨s.ports.size⟩),
            ({ s.report (.openingOutput name) with files := files }.attached
              (.ofSink (.file path 0))).marked)
  | .close id => fun s => (.ok (.unspecified ⟨s.nextMark⟩), (s.closePort id).marked)
  | .read id => fun s =>
      match s.readPort id with
      | (none, t) => (.error (.native .read .notReadable), t)
      | (some (.error e), t) => (.error e, t)
      | (some (.ok d), t) => (.ok (State.makeRead d t).1, (State.makeRead d t).2)
  | .output text none => fun s => (.ok (.unspecified ⟨s.nextMark⟩), (s.print text).marked)
  | .output text (some id) => fun s =>
      match s.writePort id text with
      | (true, t) => (.ok (.unspecified ⟨t.nextMark⟩), t.marked)
      | (false, t) => (.error (.native .write .notWritable), t)
  | .attach => fun s =>
      (.ok (.port ⟨s.nextMark⟩ ⟨s.ports.size⟩), (s.attached (.ofSink .console)).marked)

namespace Procedures

/-- The act that arguments make a call; none if they are not in order. -/
def act? (p : Native) (args : Value) : Option PortAct :=
  match p, args.toList? with
  | .openInput, some [.string _ name] => some (.openInput name)
  | .openOutput, some [.string _ name] => some (.openOutput name)
  | .closePort, some [.port _ id] => some (.close id)
  | .read, some [.port _ id] => some (.read id)
  | .write, some [v] => some (.output v.text none)
  | .write, some [v, .port _ id] => some (.output v.text (some id))
  | .display, some [v] => some (.output v.displayed none)
  | .display, some [v, .port _ id] => some (.output v.displayed (some id))
  | .newline, some [] => some (.output "\n" none)
  | .newline, some [.port _ id] => some (.output "\n" (some id))
  | .currentOutput, some [] => some .attach
  | _, _ => none

/-! ### Arguments that are in order -/

section Acts

variable {p : Native} {args v : Value} {act : PortAct}

theorem one_of_toList? (h : args.toList? = some [v]) : one p args = .ok v := by
  simp only [one, exactly, arguments, h]
  rfl

theorem openInput_eq {m : Mark} {name : String} (h : args.toList? = some [.string m name]) :
    openInput args = (PortAct.openInput name).carryOut := by
  have hname : (do fileNameArgument .openInput (← one .openInput args)) = .ok name := by
    rw [one_of_toList? h]
    rfl
  funext s
  simp only [openInput, hname, Action.bind_apply, Action.ofExcept_apply, Action.modify_apply,
    Action.get_apply, PortAct.carryOut, State.files_report]
  rcases s.files.locate name with _ | ⟨_, _⟩ <;> rfl

theorem openOutput_eq {m : Mark} {name : String} (h : args.toList? = some [.string m name]) :
    openOutput args = (PortAct.openOutput name).carryOut := by
  have hname : (do fileNameArgument .openOutput (← one .openOutput args)) = .ok name := by
    rw [one_of_toList? h]
    rfl
  funext s
  simp only [openOutput, hname, Action.bind_apply, Action.ofExcept_apply, Action.modify_apply,
    Action.get_apply, PortAct.carryOut, State.files_report]
  rcases s.files.create name with _ | ⟨_, _⟩ <;> rfl

theorem closePort_eq {m : Mark} {id : PortId} (h : args.toList? = some [.port m id]) :
    closePort args = (PortAct.close id).carryOut := by
  have hid : (do portArgument .closePort (← one .closePort args)) = .ok id := by
    rw [one_of_toList? h]
    rfl
  funext s
  simp only [closePort, hid, Action.bind_apply, Action.ofExcept_apply]
  rfl

theorem read_eq {m : Mark} {id : PortId} (h : args.toList? = some [.port m id]) :
    read args = (PortAct.read id).carryOut := by
  have hid : (do portArgument .read (← one .read args)) = .ok id := by
    rw [one_of_toList? h]
    rfl
  funext s
  simp only [read, hid, Action.bind_apply, Action.ofExcept_apply, Action.modifyGet_apply,
    PortAct.carryOut]
  rcases s.readPort id with ⟨_ | _ | _ | _, t⟩ <;> rfl

theorem output_eq (text : String) (target : Option PortId) :
    output text target = (PortAct.output text target).carryOut := by
  funext s
  cases target with
  | none => rfl
  | some id =>
      simp only [output, Action.bind_apply, Action.modifyGet_apply, PortAct.carryOut]
      rcases s.writePort id text with ⟨_ | _, t⟩ <;> rfl

theorem outputValue_eq {form : Value → String} (h : args.toList? = some [v]) :
    outputValue p form args = (PortAct.output (form v) none).carryOut := by
  rw [← output_eq]
  simp only [outputValue, arguments, h]
  rfl

theorem outputValue_eq_of_port {form : Value → String} {m : Mark} {id : PortId}
    (h : args.toList? = some [v, .port m id]) :
    outputValue p form args = (PortAct.output (form v) (some id)).carryOut := by
  rw [← output_eq]
  simp only [outputValue, arguments, h]
  rfl

theorem newline_eq (h : args.toList? = some []) :
    newline args = (PortAct.output "\n" none).carryOut := by
  rw [← output_eq]
  simp only [newline, arguments, h]
  rfl

theorem newline_eq_of_port {m : Mark} {id : PortId} (h : args.toList? = some [.port m id]) :
    newline args = (PortAct.output "\n" (some id)).carryOut := by
  rw [← output_eq]
  simp only [newline, arguments, h]
  rfl

theorem currentOutput_eq (h : args.toList? = some []) :
    currentOutput args = PortAct.attach.carryOut := by
  simp only [currentOutput, exactly, arguments, h]
  rfl

/-- With its arguments in order a call carries out its act. -/
theorem call_of_act? (h : act? p args = some act) : call p args = answering act.carryOut := by
  unfold act? at h
  split at h
  case h_1 hlist =>
    cases h
    rw [call, openInput_eq hlist]
  case h_2 hlist =>
    cases h
    rw [call, openOutput_eq hlist]
  case h_3 hlist =>
    cases h
    rw [call, closePort_eq hlist]
  case h_4 hlist =>
    cases h
    rw [call, read_eq hlist]
  case h_5 hlist | h_7 hlist =>
    cases h
    rw [call, outputValue_eq hlist]
  case h_6 hlist | h_8 hlist =>
    cases h
    rw [call, outputValue_eq_of_port hlist]
  case h_9 hlist =>
    cases h
    rw [call, newline_eq hlist]
  case h_10 hlist =>
    cases h
    rw [call, newline_eq_of_port hlist]
  case h_11 hlist =>
    cases h
    rw [call, currentOutput_eq hlist]
  case h_12 => cases h

/-! ### Arguments that are not in order -/

/-- A call that is refused in the name of its procedure, with a complaint that can be made about its
arguments and nothing done. -/
def Refuses (p : Native) (args : Value) (action : Action α) : Prop :=
  ∃ cause : CallError, (∀ s, action s = (.error (.native p cause), s)) ∧ cause.Fits args

theorem refuses_throw {cause : CallError} (h : cause.Fits args) :
    Refuses p args (throw (.native p cause) : Action α) :=
  ⟨cause, fun _ => rfl, h⟩

/-- Work on arguments that never succeeds is where a call stops. -/
theorem refuses_bind {x : Except Error α} (hx : Blames p args x) (hnone : ∀ a, x ≠ .ok a)
    (f : α → Action β) : Refuses p args (ofExcept x >>= f) := by
  cases x with
  | ok a => exact absurd rfl (hnone a)
  | error e =>
      obtain ⟨cause, rfl, hfits⟩ := hx e rfl
      exact ⟨cause, fun _ => rfl, hfits⟩

theorem refuses_bind_ok {x : Except Error α} {a : α} {f : α → Action β} (h : x = .ok a)
    (hf : Refuses p args (f a)) : Refuses p args (ofExcept x >>= f) := by
  subst h
  exact hf

theorem refuses_answering {action : Action Value} (h : Refuses p args action) :
    Refuses p args (answering action) := by
  obtain ⟨cause, h, hfits⟩ := h
  refine ⟨cause, fun s => ?_, hfits⟩
  change (action >>= fun v => pure (Answer.value v)) s = _
  rw [Action.bind_apply, h]

theorem toList?_of_one (h : one p args = .ok v) : args.toList? = some [v] := by
  unfold one exactly at h
  cases hlist : args.toList? with
  | none =>
      simp only [arguments, hlist] at h
      cases h
  | some vs =>
      rw [arguments_eq_ok_iff.mpr hlist] at h
      match vs with
      | [] => cases h
      | [w] =>
          cases h
          rfl
      | _ :: _ :: _ => cases h

/-- The only argument with what is asked of it, as one piece of work. -/
theorem refuses_one {ask : Value → Except Error α} (hask : ∀ v, Blames p args (ask v))
    (hnone : ∀ v a, args.toList? = some [v] → ask v ≠ .ok a) (f : α → Action β) :
    Refuses p args (ofExcept (do ask (← one p args)) >>= f) := by
  refine refuses_bind ((one_blames p args).bind hask) (fun a hok => ?_) f
  cases hone : one p args with
  | error e =>
      rw [hone] at hok
      cases hok
  | ok v =>
      rw [hone] at hok
      exact hnone v a (toList?_of_one hone) hok

theorem eq_port_of_portArgument {id : PortId} (h : portArgument p v = .ok id) :
    ∃ m, v = .port m id := by
  cases v with
  | port m other =>
      cases h
      exact ⟨m, rfl⟩
  | _ => cases h

theorem eq_string_of_fileNameArgument {name : String} (h : fileNameArgument p v = .ok name) :
    ∃ m, v = .string m name := by
  cases v with
  | string m text =>
      cases h
      exact ⟨m, rfl⟩
  | _ => cases h

theorem refuses_fileName (h : ∀ m name, args.toList? ≠ some [.string m name])
    (f : String → Action Value) :
    Refuses p args (ofExcept (do fileNameArgument p (← one p args)) >>= f) := by
  refine refuses_one (fileNameArgument_blames p args) (fun v name hlist hok => ?_) f
  obtain ⟨m, rfl⟩ := eq_string_of_fileNameArgument hok
  exact h m name hlist

theorem refuses_port (h : ∀ m id, args.toList? ≠ some [.port m id]) (f : PortId → Action Value) :
    Refuses p args (ofExcept (do portArgument p (← one p args)) >>= f) := by
  refine refuses_one (portArgument_blames p args) (fun v id hlist hok => ?_) f
  obtain ⟨m, rfl⟩ := eq_port_of_portArgument hok
  exact h m id hlist

/-- A target that is no port. -/
theorem refuses_target (h : ∀ m id, v ≠ .port m id) (f : PortId → Action Value) :
    Refuses p args (ofExcept (portArgument p v) >>= f) := by
  refine refuses_bind (portArgument_blames p args v) (fun id hok => ?_) f
  obtain ⟨m, rfl⟩ := eq_port_of_portArgument hok
  exact h m id rfl

theorem refuses_improper (h : args.toList? = none) (f : List Value → Action β) :
    Refuses p args (ofExcept (arguments p args) >>= f) := by
  refine refuses_bind (arguments_blames p args) (fun vs hok => ?_) f
  rw [arguments_eq_ok_iff.mp hok] at h
  cases h

theorem refuses_outputValue {form : Value → String} (hone : ∀ v, args.toList? ≠ some [v])
    (htwo : ∀ v m id, args.toList? ≠ some [v, .port m id]) :
    Refuses p args (outputValue p form args) := by
  unfold outputValue
  cases hlist : args.toList? with
  | none => exact refuses_improper hlist _
  | some vs =>
      refine refuses_bind_ok (arguments_eq_ok_iff.mpr hlist) ?_
      match vs with
      | [] => exact refuses_throw (.other rfl)
      | [v] => exact absurd hlist (hone v)
      | [v, target] =>
          refine refuses_target (fun m id heq => ?_) _
          exact htwo v m id (heq ▸ hlist)
      | _ :: _ :: _ :: _ => exact refuses_throw (.other rfl)

theorem refuses_newline (hnone : args.toList? ≠ some [])
    (hone : ∀ m id, args.toList? ≠ some [.port m id]) : Refuses .newline args (newline args) := by
  unfold newline
  cases hlist : args.toList? with
  | none => exact refuses_improper hlist _
  | some vs =>
      refine refuses_bind_ok (arguments_eq_ok_iff.mpr hlist) ?_
      match vs with
      | [] => exact absurd hlist hnone
      | [target] =>
          refine refuses_target (fun m id heq => ?_) _
          exact hone m id (heq ▸ hlist)
      | _ :: _ :: _ => exact refuses_throw (.other rfl)

theorem refuses_currentOutput (h : args.toList? ≠ some []) :
    Refuses .currentOutput args (currentOutput args) := by
  refine refuses_bind ?_ (fun vs hok => ?_) _
  · exact exactly_blames .currentOutput args 0
  · unfold exactly at hok
    cases hlist : args.toList? with
    | none =>
        simp only [arguments, hlist] at hok
        cases hok
    | some vs =>
        rw [arguments_eq_ok_iff.mpr hlist] at hok
        match vs with
        | [] => exact h hlist
        | _ :: _ => cases hok

/-- A call that deals with ports and has its arguments out of order is refused in its own name, and
nothing is done. -/
theorem call_refused (hp : p.dealsWithPorts = true) (h : act? p args = none) :
    Refuses p args (call p args) := by
  have hout : ∀ act, act? p args ≠ some act := by simp [h]
  cases p with
  | openInput =>
      exact refuses_answering (refuses_fileName (fun m name hlist => by simp [act?, hlist] at h) _)
  | openOutput =>
      exact refuses_answering (refuses_fileName (fun m name hlist => by simp [act?, hlist] at h) _)
  | closePort =>
      exact refuses_answering (refuses_port (fun m id hlist => by simp [act?, hlist] at h) _)
  | read =>
      exact refuses_answering (refuses_port (fun m id hlist => by simp [act?, hlist] at h) _)
  | write =>
      exact refuses_answering (refuses_outputValue (fun v hlist => by simp [act?, hlist] at h)
        (fun v m id hlist => by simp [act?, hlist] at h))
  | display =>
      exact refuses_answering (refuses_outputValue (fun v hlist => by simp [act?, hlist] at h)
        (fun v m id hlist => by simp [act?, hlist] at h))
  | newline =>
      exact refuses_answering (refuses_newline (fun hlist => by simp [act?, hlist] at h)
        (fun m id hlist => by simp [act?, hlist] at h))
  | currentOutput =>
      exact refuses_answering (refuses_currentOutput (fun hlist => by simp [act?, hlist] at h))
  | _ => cases hp

end Acts

/-! ### What calls can answer -/

section Answers

variable {p : Native} {args : Value} {s t : State}

/-- All procedures but one answer with a value. -/
theorem call_eq_answering (h : p ≠ .eval) (args : Value) :
    ∃ action, call p args = answering action := by
  cases p with
  | eval => exact absurd rfl h
  | _ => exact ⟨_, rfl⟩

/-- An action is answered with its value, and fails as it fails. -/
theorem answering_eq_iff {action : Action Value} {r : Except Error Value} :
    answering action s = (r.map Answer.value, t) ↔ action s = (r, t) := by
  change (action >>= fun v => pure (Answer.value v)) s = _ ↔ _
  rw [Action.bind_apply]
  obtain ⟨result, u⟩ := action s
  constructor
  · intro h
    cases result <;> cases r <;> cases h <;> rfl
  · intro h
    cases h
    cases r <;> rfl

/-- Only `eval` asks for an evaluation. -/
theorem eq_eval_of_call {expr : Value} {env : EnvId}
    (h : call p args s = (.ok (.evaluation expr env), t)) : p = .eval := by
  by_contra hp
  obtain ⟨action, haction⟩ := call_eq_answering hp args
  have hanswer : answering action s = ((action s).1.map Answer.value, (action s).2) :=
    answering_eq_iff.mpr rfl
  rw [haction, hanswer] at h
  cases hresult : (action s).1 <;> rw [hresult] at h <;> cases h

/-- What can go wrong in a call: arguments, files, and texts that are read. -/
inductive Failure (args : Value) : Error → Prop where
  | native {p : Native} {cause : CallError} (h : cause.Fits args) : Failure args (.native p cause)
  | io (cause) : Failure args (.io cause)
  | malformed (cause) : Failure args (.malformed cause)

theorem readDatum_complaint {stream : CharStream} {e : Error}
    (h : (Reader.readDatum stream).1 = .error e) : Complaint e := by
  rcases Reader.readDatum_cases stream with ⟨_, hcall, _⟩ | ⟨_, _, hcall, _⟩ | ⟨_, _, hcall, he, _⟩
  all_goals
    rw [hcall] at h
    cases h
  exact he

/-- What is wrong with an input is wrong with its text, unless it has none. -/
theorem scan_complaint {fs : FileSystem} {i : Input} {e : Error}
    (h : (i.readDatum fs).1 = .error e) : e = .io .isDirectory ∨ Complaint e := by
  obtain ⟨stream, source⟩ := i
  cases source with
  | memory => exact .inr (readDatum_complaint h)
  | directory =>
      cases h
      exact .inl rfl
  | file path offset =>
      simp only [Input.readDatum, Input.scan] at h
      split at h
      next result after hrun =>
        have hresult : (Reader.readDatum stream).1 = result := congrArg Prod.fst hrun
        split at h
        · exact .inr (readDatum_complaint (hresult.trans h))
        · exact .inr (readDatum_complaint h)

theorem scan_failure (fs : FileSystem) (i : Input) {e : Error}
    (h : (i.readDatum fs).1 = .error e) : Failure args e := by
  rcases scan_complaint h with rfl | he
  · exact .io _
  · cases he with
    | invalidText => exact .io _
    | malformed => exact .malformed _

/-- How an act can fail: for its files, for its text, or for a port without the side it needs. -/
inductive ActFails (s : State) : PortAct → Error → Prop where
  | openInput (name cause) : ActFails s (.openInput name) (.io cause)
  | openOutput (name cause) : ActFails s (.openOutput name) (.io cause)
  | unread {id input e} (hinput : (s.port id).input = some input)
      (h : (input.readDatum s.files).1 = .error e) : ActFails s (.read id) e
  | notReadable {id} (h : (s.port id).input = none) :
      ActFails s (.read id) (.native .read .notReadable)
  | notWritable {text id} (h : (s.port id).output = none) :
      ActFails s (.output text (some id)) (.native .write .notWritable)

theorem actFails_of_carryOut {act : PortAct} {e : Error} (h : (act.carryOut s).1 = .error e) :
    ActFails s act e := by
  cases act with
  | openInput name =>
      simp only [PortAct.carryOut] at h
      split at h <;> cases h
      exact .openInput name _
  | openOutput name =>
      simp only [PortAct.carryOut] at h
      split at h <;> cases h
      exact .openOutput name _
  | close id | attach => cases h
  | read id =>
      simp only [PortAct.carryOut] at h
      cases hinput : (s.port id).input with
      | none =>
          rw [State.readPort_of_none hinput] at h
          cases h
          exact .notReadable hinput
      | some input =>
          rw [State.readPort_of_some hinput] at h
          dsimp only at h
          cases hread : (input.readDatum s.files).1 with
          | error e' =>
              rw [hread] at h
              cases h
              exact .unread hinput hread
          | ok d =>
              rw [hread] at h
              cases h
  | output text target =>
      cases target with
      | none => cases h
      | some id =>
          simp only [PortAct.carryOut] at h
          cases hsink : (s.port id).output with
          | none =>
              rw [State.writePort_of_none hsink] at h
              cases h
              exact .notWritable hsink
          | some sink =>
              rw [State.writePort_of_some hsink] at h
              cases h

theorem carryOut_failure {act : PortAct} {e : Error} (h : (act.carryOut s).1 = .error e) :
    Failure args e := by
  cases actFails_of_carryOut h with
  | openInput _ cause | openOutput _ cause => exact .io cause
  | unread _ hread => exact scan_failure _ _ hread
  | notReadable | notWritable => exact .native (.other rfl)

/-- A call that fails fails for its arguments, its files or its texts, never for the program around
it. -/
theorem call_failure {e : Error} (h : call p args s = (.error e, t)) : Failure args e := by
  have herror : (call p args s).1 = .error e := by rw [h]
  by_cases hp : p.dealsWithPorts = true
  · cases hact : act? p args with
    | none =>
        obtain ⟨cause, hrefused, hfits⟩ := call_refused hp hact
        rw [hrefused] at h
        cases h
        exact .native hfits
    | some act =>
        rw [call_of_act? hact] at h
        have hact : act.carryOut s = (.error e, t) := (answering_eq_iff (r := .error e)).mp h
        exact carryOut_failure (congrArg Prod.fst hact)
  · obtain ⟨cause, rfl, hfits⟩ := call_faults (by simpa using hp) args s e (congrArg Prod.fst h)
    exact .native hfits

end Answers

end Procedures

end TinyLisp
