import TinyLisp.Proofs.Evaluation.Equations
import TinyLisp.Proofs.Procedures.Ports

/-!
What calls do not see.  No built-in procedure asks whether tracing is on or what has been reported,
and what a call reports itself is no trace.  Main statement: `call_oblivious`.
-/

namespace TinyLisp

variable {α β : Type}

/-- States that are equal but for tracing: whether it is on, and what it has reported. -/
structure State.Like (s t : State) : Prop where
  nextMark : t.nextMark = s.nextMark
  environments : t.environments = s.environments
  ports : t.ports = s.ports
  files : t.files = s.files
  console : t.console = s.console
  reports : t.events.filter (fun e => !e.isTrace) = s.events.filter fun e => !e.isTrace

namespace State.Like

variable {s t u : State}

theorem refl (s : State) : Like s s :=
  ⟨rfl, rfl, rfl, rfl, rfl, rfl⟩

theorem symm (h : Like s t) : Like t s :=
  ⟨h.nextMark.symm, h.environments.symm, h.ports.symm, h.files.symm, h.console.symm,
    h.reports.symm⟩

theorem trans (h : Like s t) (h' : Like t u) : Like s u :=
  ⟨h'.nextMark.trans h.nextMark, h'.environments.trans h.environments, h'.ports.trans h.ports,
    h'.files.trans h.files, h'.console.trans h.console, h'.reports.trans h.reports⟩

/-- One state is the other with its own reports and its own switch. -/
theorem eq (h : Like s t) : t = { s with events := t.events, tracing := t.tracing } := by
  obtain ⟨hmark, henvironments, hports, hfiles, hconsole, _⟩ := h
  rw [← hmark, ← henvironments, ← hports, ← hfiles, ← hconsole]

theorem bindings (h : Like s t) (env : EnvId) : t.bindings env = s.bindings env := by
  rw [State.bindings, h.environments, State.bindings]

theorem lookup (h : Like s t) (env : EnvId) (x : String) : t.lookup env x = s.lookup env x := by
  rw [State.lookup, h.bindings, State.lookup]

theorem port (h : Like s t) (id : PortId) : t.port id = s.port id := by
  rw [State.port, h.ports, State.port]

/-! ### Operations on both states -/

theorem withTracing (h : Like s t) (b c : Bool) :
    Like { s with tracing := b } { t with tracing := c } :=
  ⟨h.nextMark, h.environments, h.ports, h.files, h.console, h.reports⟩

theorem withMark (h : Like s t) (n : Nat) : Like { s with nextMark := n } { t with nextMark := n } :=
  ⟨rfl, h.environments, h.ports, h.files, h.console, h.reports⟩

theorem withFiles (h : Like s t) (fs : FileSystem) :
    Like { s with files := fs } { t with files := fs } :=
  ⟨h.nextMark, h.environments, h.ports, rfl, h.console, h.reports⟩

theorem marked (h : Like s t) : Like s.marked t.marked :=
  ⟨congrArg (· + 1) h.nextMark, h.environments, h.ports, h.files, h.console, h.reports⟩

theorem grown (h : Like s t) (b : Bindings) : Like (s.grown b) (t.grown b) :=
  ⟨h.nextMark, congrArg (Array.push · b) h.environments, h.ports, h.files, h.console, h.reports⟩

theorem bind (h : Like s t) (env : EnvId) (x : String) (v : Value) :
    Like (s.bind env x v) (t.bind env x v) := by
  have hset : (t.bind env x v).environments = (s.bind env x v).environments := by
    simp only [State.bind, State.setBindings, h.bindings, h.environments]
  exact ⟨h.nextMark, hset, h.ports, h.files, h.console, h.reports⟩

theorem report (h : Like s t) (e : Event) : Like (s.report e) (t.report e) := by
  refine ⟨h.nextMark, h.environments, h.ports, h.files, h.console, ?_⟩
  simp only [State.report, List.filter_cons, h.reports]

/-- A trace makes no difference. -/
theorem of_trace (s : State) {e : Event} (he : e.isTrace = true) : Like s (s.trace e) := by
  unfold State.trace
  split
  · refine ⟨rfl, rfl, rfl, rfl, rfl, ?_⟩
    simp [State.report, he]
  · exact refl s

theorem trace (h : Like s t) {e : Event} (he : e.isTrace = true) : Like (s.trace e) (t.trace e) :=
  ((of_trace s he).symm.trans h).trans (of_trace t he)

theorem print (h : Like s t) (text : String) : Like (s.print text) (t.print text) :=
  ⟨h.nextMark, h.environments, h.ports, h.files, congrArg (· ++ text) h.console, h.reports⟩

theorem attached (h : Like s t) (p : Port) : Like (s.attached p) (t.attached p) :=
  ⟨h.nextMark, h.environments, congrArg (Array.push · p) h.ports, h.files, h.console, h.reports⟩

theorem setPort (h : Like s t) (id : PortId) (p : Port) :
    Like (s.setPort id p) (t.setPort id p) := by
  have hset : (t.setPort id p).ports = (s.setPort id p).ports := by
    simp only [State.setPort, h.ports]
  exact ⟨h.nextMark, h.environments, hset, h.files, h.console, h.reports⟩

theorem deliver (h : Like s t) (text : String) (sink : Sink) :
    (State.deliver text sink t).1 = (State.deliver text sink s).1 ∧
      Like (State.deliver text sink s).2 (State.deliver text sink t).2 := by
  cases sink with
  | memory => exact ⟨rfl, h⟩
  | console => exact ⟨rfl, h.print text⟩
  | file path offset =>
      refine ⟨rfl, h.nextMark, h.environments, h.ports, ?_, h.console, h.reports⟩
      simp only [State.deliver, h.files]

/-- Writing to a port is the same in both states. -/
theorem writePort (h : Like s t) (id : PortId) (text : String) :
    (State.writePort id text t).1 = (State.writePort id text s).1 ∧
      Like (State.writePort id text s).2 (State.writePort id text t).2 := by
  cases houtput : (s.port id).output with
  | none =>
      rw [State.writePort_of_none houtput, State.writePort_of_none (by rw [h.port, houtput])]
      exact ⟨rfl, h⟩
  | some sink =>
      rw [State.writePort_of_some houtput, State.writePort_of_some (by rw [h.port, houtput])]
      obtain ⟨hsink, hlike⟩ := h.deliver text sink
      rw [hsink, h.port]
      exact ⟨rfl, hlike.setPort id _⟩

/-- Reading from a port is the same in both states. -/
theorem readPort (h : Like s t) (id : PortId) :
    (State.readPort id t).1 = (State.readPort id s).1 ∧
      Like (State.readPort id s).2 (State.readPort id t).2 := by
  cases hinput : (s.port id).input with
  | none =>
      rw [State.readPort_of_none hinput, State.readPort_of_none (by rw [h.port, hinput])]
      exact ⟨rfl, h⟩
  | some input =>
      rw [State.readPort_of_some hinput, State.readPort_of_some (by rw [h.port, hinput])]
      rw [h.files, h.port]
      exact ⟨rfl, h.setPort id _⟩

end State.Like

namespace State

theorem writePort_keeps (id : PortId) (text : String) (s : State) :
    (writePort id text s).2.tracing = s.tracing ∧ (writePort id text s).2.events = s.events := by
  simp only [writePort]
  split
  · exact ⟨rfl, rfl⟩
  · next sink _ => cases sink <;> exact ⟨rfl, rfl⟩

theorem readPort_keeps (id : PortId) (s : State) :
    (readPort id s).2.tracing = s.tracing ∧ (readPort id s).2.events = s.events := by
  simp only [readPort]
  split <;> exact ⟨rfl, rfl⟩

end State

/-- An action that sees nothing of tracing, does nothing about it and traces nothing. -/
structure Oblivious (action : Action α) : Prop where
  result : ∀ {s t}, s.Like t → (action t).1 = (action s).1
  state : ∀ {s t}, s.Like t → (action s).2.Like (action t).2
  tracing : ∀ s, (action s).2.tracing = s.tracing
  traces : ∀ s, (action s).2.events.filter Event.isTrace = s.events.filter Event.isTrace

namespace Oblivious

theorem of_marking {action : Action α} (h : Marking action) : Oblivious action := by
  obtain ⟨f, hf⟩ := h
  refine ⟨fun h => ?_, fun h => ?_, fun s => ?_, fun s => ?_⟩
  · rw [hf, hf, h.nextMark]
  · rw [hf, hf, h.nextMark]
    exact h.withMark _
  · rw [hf]
  · rw [hf]

theorem of_modifyGet {f : State → α × State}
    (hlike : ∀ {s t}, s.Like t → (f t).1 = (f s).1 ∧ (f s).2.Like (f t).2)
    (hkeeps : ∀ s, (f s).2.tracing = s.tracing ∧ (f s).2.events = s.events) :
    Oblivious (modifyGet f : Action α) := by
  refine ⟨fun h => ?_, fun h => ?_, fun s => ?_, fun s => ?_⟩
  · rw [Action.modifyGet_apply, Action.modifyGet_apply, (hlike h).1]
  · rw [Action.modifyGet_apply, Action.modifyGet_apply]
    exact (hlike h).2
  · rw [Action.modifyGet_apply]
    exact (hkeeps s).1
  · rw [Action.modifyGet_apply, (hkeeps s).2]

theorem bind {action : Action α} {f : α → Action β} (h : Oblivious action)
    (hf : ∀ a, Oblivious (f a)) : Oblivious (action >>= f) := by
  refine ⟨fun {s t} hlike => ?_, fun {s t} hlike => ?_, fun s => ?_, fun s => ?_⟩
  · have hresult := h.result hlike
    have hstate := h.state hlike
    rw [Action.bind_apply, Action.bind_apply]
    revert hresult hstate
    rcases action s with ⟨_ | a, u⟩ <;> rcases action t with ⟨_ | a', u'⟩
    all_goals
      intro hresult hstate
      cases hresult
    · rfl
    · exact (hf a).result hstate
  · have hresult := h.result hlike
    have hstate := h.state hlike
    rw [Action.bind_apply, Action.bind_apply]
    revert hresult hstate
    rcases action s with ⟨_ | a, u⟩ <;> rcases action t with ⟨_ | a', u'⟩
    all_goals
      intro hresult hstate
      cases hresult
    · exact hstate
    · exact (hf a).state hstate
  · have htracing := h.tracing s
    rw [Action.bind_apply]
    revert htracing
    rcases action s with ⟨_ | a, u⟩
    · exact fun htracing => htracing
    · exact fun htracing => ((hf a).tracing u).trans htracing
  · have htraces := h.traces s
    rw [Action.bind_apply]
    revert htraces
    rcases action s with ⟨_ | a, u⟩
    · exact fun htraces => htraces
    · exact fun htraces => ((hf a).traces u).trans htraces

theorem openInput (name : String) : Oblivious (PortAct.openInput name).carryOut := by
  refine ⟨fun h => ?_, fun h => ?_, fun s => ?_, fun s => ?_⟩
  · simp only [PortAct.carryOut, h.files, h.nextMark, h.ports]
    split <;> rfl
  · simp only [PortAct.carryOut, h.files]
    split
    · exact h.report _
    · exact ((h.report _).attached _).marked
  · simp only [PortAct.carryOut]
    split <;> rfl
  · simp only [PortAct.carryOut]
    split <;> rfl

theorem openOutput (name : String) : Oblivious (PortAct.openOutput name).carryOut := by
  refine ⟨fun h => ?_, fun h => ?_, fun s => ?_, fun s => ?_⟩
  · simp only [PortAct.carryOut, h.files, h.nextMark, h.ports]
    split <;> rfl
  · simp only [PortAct.carryOut, h.files]
    split
    · exact h.report _
    · exact (((h.report _).withFiles _).attached _).marked
  · simp only [PortAct.carryOut]
    split <;> rfl
  · simp only [PortAct.carryOut]
    split <;> rfl

theorem close (id : PortId) : Oblivious (PortAct.close id).carryOut := by
  refine ⟨fun h => ?_, fun h => ?_, fun s => rfl, fun s => rfl⟩
  · simp only [PortAct.carryOut, h.nextMark]
  · simp only [PortAct.carryOut, State.closePort, h.port]
    exact (h.setPort id _).marked

theorem of_makeRead (o : Option Datum) : Oblivious (State.makeRead o : Action Value) := by
  obtain ⟨f, hf⟩ := State.makeRead_marks o
  exact of_marking ⟨fun n => (.ok (f n).1, (f n).2), fun s => by rw [Action.lift_apply, hf]⟩

theorem read (id : PortId) : Oblivious (PortAct.read id).carryOut := by
  have hsteps : (PortAct.read id).carryOut =
      ((modifyGet (State.readPort id) : Action _) >>= fun answer =>
        match answer with
        | none => throw (.native .read .notReadable)
        | some (.error e) => throw e
        | some (.ok o) => (State.makeRead o : Action Value)) := by
    funext s
    simp only [PortAct.carryOut, Action.bind_apply, Action.modifyGet_apply]
    rcases State.readPort id s with ⟨_ | _ | _, t⟩ <;> rfl
  rw [hsteps]
  refine (of_modifyGet (fun h => h.readPort id) (State.readPort_keeps id)).bind fun answer => ?_
  rcases answer with _ | e | o
  · exact of_marking (.throw _)
  · exact of_marking (.throw _)
  · exact of_makeRead o

theorem output (text : String) (target : Option PortId) :
    Oblivious (PortAct.output text target).carryOut := by
  cases target with
  | none =>
      refine ⟨fun h => ?_, fun h => (h.print text).marked, fun s => rfl, fun s => rfl⟩
      simp only [PortAct.carryOut, h.nextMark]
  | some id =>
      rw [← Procedures.output_eq]
      refine (of_modifyGet (fun h => h.writePort id text) (State.writePort_keeps id text)).bind
        fun written => ?_
      split
      · exact of_marking (.make _)
      · exact of_marking (.throw _)

theorem attach : Oblivious PortAct.attach.carryOut := by
  refine ⟨fun h => ?_, fun h => (h.attached _).marked, fun s => rfl, fun s => rfl⟩
  simp only [PortAct.carryOut, h.nextMark, h.ports]

theorem carryOut (act : PortAct) : Oblivious act.carryOut := by
  cases act with
  | openInput name => exact openInput name
  | openOutput name => exact openOutput name
  | close id => exact close id
  | read id => exact read id
  | output text target => exact output text target
  | attach => exact attach

end Oblivious

namespace Procedures

theorem answering_oblivious {action : Action Value} (h : Oblivious action) :
    Oblivious (answering action) := by
  have hanswer (s : State) : answering action s = ((action s).1.map Answer.value, (action s).2) :=
    answering_eq_iff.mpr rfl
  refine ⟨fun hlike => ?_, fun hlike => ?_, fun s => ?_, fun s => ?_⟩
  · rw [hanswer, hanswer, h.result hlike]
  · rw [hanswer, hanswer]
    exact h.state hlike
  · rw [hanswer]
    exact h.tracing s
  · rw [hanswer]
    exact h.traces s

/-- No call sees whether tracing is on or what has been reported, and none traces. -/
theorem call_oblivious (p : Native) (args : Value) : Oblivious (call p args) := by
  by_cases hp : p.dealsWithPorts = true
  · cases hact : act? p args with
    | none =>
        obtain ⟨cause, hrefused, _⟩ := call_refused hp hact
        exact .of_marking ⟨fun n => (.error (.native p cause), n), hrefused⟩
    | some act =>
        rw [call_of_act? hact]
        exact answering_oblivious (.carryOut act)
  · exact .of_marking (call_marking (by simpa using hp) args)

end Procedures

end TinyLisp
