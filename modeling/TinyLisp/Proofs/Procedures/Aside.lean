import TinyLisp.Proofs.Procedures.Ports

/-!
What calls pass by.  A call looks at marks, ports and files only, and besides these it changes what
has been put out.  Main statement: `call_aside`, a change made to the rest of the state makes no
difference to a call, and is still there after it.
-/

namespace TinyLisp

/-- A change to what no call looks at. -/
structure State.Aside (f : State → State) : Prop where
  nextMark : ∀ s, (f s).nextMark = s.nextMark
  ports : ∀ s, (f s).ports = s.ports
  files : ∀ s, (f s).files = s.files
  withMark : ∀ s n, { f s with nextMark := n } = f { s with nextMark := n }
  withPorts : ∀ s ports, { f s with ports := ports } = f { s with ports := ports }
  withFiles : ∀ s files, { f s with files := files } = f { s with files := files }
  report : ∀ s e, (f s).report e = f (s.report e)
  print : ∀ s text, (f s).print text = f (s.print text)

namespace State.Aside

variable {f : State → State} (hf : Aside f)

include hf

theorem marked (s : State) : (f s).marked = f s.marked := by
  rw [State.marked, hf.nextMark, hf.withMark, State.marked]

theorem attached (s : State) (p : Port) : (f s).attached p = f (s.attached p) := by
  rw [State.attached, hf.ports, hf.withPorts, State.attached]

theorem port (s : State) (id : PortId) : (f s).port id = s.port id := by
  rw [State.port, hf.ports, State.port]

theorem setPort (s : State) (id : PortId) (p : Port) : (f s).setPort id p = f (s.setPort id p) := by
  rw [State.setPort, hf.ports, hf.withPorts, State.setPort]

theorem deliver (text : String) (sink : Sink) (s : State) :
    State.deliver text sink (f s) =
      ((State.deliver text sink s).1, f (State.deliver text sink s).2) := by
  cases sink with
  | memory => rfl
  | console => rw [State.deliver, hf.print, State.deliver]
  | file path offset => simp only [State.deliver, hf.files, hf.withFiles]

theorem writePort (id : PortId) (text : String) (s : State) :
    State.writePort id text (f s) =
      ((State.writePort id text s).1, f (State.writePort id text s).2) := by
  cases houtput : (s.port id).output with
  | none => rw [writePort_of_none houtput, writePort_of_none (by rw [hf.port, houtput])]
  | some sink =>
      rw [writePort_of_some houtput, writePort_of_some (by rw [hf.port, houtput]), hf.deliver,
        hf.port, hf.setPort]

theorem readPort (id : PortId) (s : State) :
    State.readPort id (f s) = ((State.readPort id s).1, f (State.readPort id s).2) := by
  cases hinput : (s.port id).input with
  | none => rw [readPort_of_none hinput, readPort_of_none (by rw [hf.port, hinput])]
  | some input =>
      rw [readPort_of_some hinput, readPort_of_some (by rw [hf.port, hinput]), hf.files, hf.port,
        hf.setPort]

theorem marking {α : Type} {action : Action α} (h : Marking action) (s : State) :
    action (f s) = ((action s).1, f (action s).2) := by
  obtain ⟨g, hg⟩ := h
  rw [hg, hg, hf.nextMark, hf.withMark]

theorem carryOut (act : PortAct) (s : State) :
    act.carryOut (f s) = ((act.carryOut s).1, f (act.carryOut s).2) := by
  cases act with
  | openInput name =>
      simp only [PortAct.carryOut, hf.files, hf.nextMark, hf.ports, hf.report, hf.attached,
        hf.marked]
      split <;> rfl
  | openOutput name =>
      simp only [PortAct.carryOut, hf.files, hf.report]
      split
      · rfl
      · rw [hf.withFiles, hf.attached, hf.marked, hf.nextMark, hf.ports]
  | close id =>
      simp only [PortAct.carryOut, State.closePort, hf.nextMark, hf.port, hf.setPort, hf.marked]
  | read id =>
      simp only [PortAct.carryOut, hf.readPort]
      rcases State.readPort id s with ⟨_ | _ | o, t⟩
      · rfl
      · rfl
      · obtain ⟨g, hg⟩ := State.makeRead_marks o
        simp only [hg, hf.nextMark, hf.withMark]
  | output text target =>
      cases target with
      | none => simp only [PortAct.carryOut, hf.nextMark, hf.print, hf.marked]
      | some id =>
          simp only [PortAct.carryOut, hf.writePort]
          rcases State.writePort id text s with ⟨_ | _, t⟩
          · rfl
          · simp only [hf.nextMark, hf.marked]
  | attach => simp only [PortAct.carryOut, hf.nextMark, hf.ports, hf.attached, hf.marked]

end State.Aside

/-- A call does not notice a change to what it does not look at. -/
theorem Procedures.call_aside {f : State → State} (hf : State.Aside f) (p : Native) (args : Value)
    (s : State) : call p args (f s) = ((call p args s).1, f (call p args s).2) := by
  by_cases hp : p.dealsWithPorts = true
  · cases hact : act? p args with
    | none =>
        obtain ⟨cause, hrefused, _⟩ := call_refused hp hact
        rw [hrefused, hrefused]
    | some act =>
        have hanswer (s : State) : answering act.carryOut s =
            ((act.carryOut s).1.map Answer.value, (act.carryOut s).2) :=
          answering_eq_iff.mpr rfl
        rw [call_of_act? hact, hanswer, hanswer, hf.carryOut]
  · exact hf.marking (call_marking (by simpa using hp) args) s

end TinyLisp
