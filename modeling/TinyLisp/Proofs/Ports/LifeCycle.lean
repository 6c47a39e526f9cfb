import Mathlib.Data.List.Forall2
import TinyLisp.Proofs.Evaluation.Passage
import TinyLisp.Proofs.Procedures.Ports

/-!
The life of a port.  A run moves a port only by the acts that programs ask for on it: a text written
is added to its content, a datum read takes its input on, and closing it ends both.  Main statement:
`port_life_cycle`.
-/

namespace TinyLisp

open Evaluator

/-! ### What is left as it was -/

/-- Where a sink is after a text. -/
def Sink.after (text : String) : Sink → Sink
  | .memory => .memory
  | .console => .console
  | .file path offset => .file path (offset + (encode text).length)

namespace State

variable (s : State) (id other : PortId) (p : Port)

@[simp] theorem ports_trace (e : Event) : (s.trace e).ports = s.ports := by
  unfold trace
  split <;> rfl

@[simp] theorem port_trace (e : Event) : (s.trace e).port id = s.port id := by
  simp [port]

@[simp] theorem files_trace (e : Event) : (s.trace e).files = s.files := by
  unfold trace
  split <;> rfl

@[simp] theorem size_setPort : (s.setPort id p).ports.size = s.ports.size := by
  simp [setPort]

theorem port_setPort :
    (s.setPort id p).port other =
      if id = other ∧ id.index < s.ports.size then p else s.port other := by
  obtain ⟨i⟩ := id
  obtain ⟨j⟩ := other
  simp only [port, setPort, Array.getD_eq_getD_getElem?, Array.getElem?_setIfInBounds,
    PortId.mk.injEq]
  by_cases hij : i = j
  · subst hij
    by_cases hi : i < s.ports.size <;> simp [hi]
  · simp [hij]

theorem port_attached (h : id.index < s.ports.size) : (s.attached p).port id = s.port id := by
  simp only [port, attached, Array.getD_eq_getD_getElem?, Array.getElem?_push,
    if_neg (Nat.ne_of_lt h)]

theorem size_le_attached : s.ports.size ≤ (s.attached p).ports.size := by
  rw [attached, Array.size_push]
  exact Nat.le_succ _

theorem deliver_fst (text : String) (sink : Sink) : (deliver text sink s).1 = sink.after text := by
  cases sink <;> rfl

theorem ports_deliver (text : String) (sink : Sink) : (deliver text sink s).2.ports = s.ports := by
  cases sink <;> rfl

theorem ports_makeRead (o : Option Datum) : (makeRead o s).2.ports = s.ports := by
  obtain ⟨f, hf⟩ := makeRead_marks o
  rw [hf]

end State

/-! ### What an act does to a port -/

namespace Port

/-- A port after text was written to it; nothing is written without a writable side. -/
def told (text : String) (p : Port) : Port :=
  match p.output with
  | none => p
  | some sink => { p with output := some (sink.after text), written := p.written ++ text }

/-- A port after its next datum was read. -/
def asked (fs : FileSystem) (p : Port) : Port :=
  { p with input := p.input.map fun i => (i.readDatum fs).2 }

/-- What becomes of the port at a place by an act, which may be on another port. -/
def after (fs : FileSystem) (id : PortId) (p : Port) : PortAct → Port
  | .close other => if other = id then p.close else p
  | .read other => if other = id then p.asked fs else p
  | .output text (some other) => if other = id then p.told text else p
  | _ => p

variable {p : Port} {fs : FileSystem} {id : PortId} {act : PortAct}

theorem sides_eq_none (h : p.isOpen = false) : p.input = none ∧ p.output = none := by
  simpa [isOpen, Bool.or_eq_false_iff] using h

theorem close_of_closed (h : p.isOpen = false) : p.close = p := by
  obtain ⟨hinput, houtput⟩ := sides_eq_none h
  obtain ⟨input, output, written⟩ := p
  cases hinput
  cases houtput
  rfl

/-- No act changes a closed port. -/
theorem after_of_closed (h : p.isOpen = false) : p.after fs id act = p := by
  obtain ⟨hinput, houtput⟩ := sides_eq_none h
  unfold after
  split
  · rw [close_of_closed h, ite_self]
  · have hasked : p.asked fs = p := by
      obtain ⟨input, output, written⟩ := p
      cases hinput
      rfl
    rw [hasked, ite_self]
  · have htold (text : String) : p.told text = p := by rw [told, houtput]
    rw [htold, ite_self]
  · rfl

end Port

section Acts

variable {s : State} {id : PortId} {act : PortAct}

theorem port_readPort (h : id.index < s.ports.size) (target : PortId) :
    (State.readPort target s).2.port id = (s.port id).after s.files id (.read target) ∧
      (State.readPort target s).2.ports.size = s.ports.size := by
  cases hinput : (s.port target).input with
  | none =>
      rw [State.readPort_of_none hinput]
      refine ⟨?_, rfl⟩
      by_cases htarget : target = id
      · subst htarget
        have hasked : (s.port target).asked s.files = s.port target := by
          rw [Port.asked, hinput, Option.map_none, ← hinput]
        rw [Port.after, if_pos rfl, hasked]
      · rw [Port.after, if_neg htarget]
  | some input =>
      rw [State.readPort_of_some hinput]
      refine ⟨?_, State.size_setPort s target _⟩
      by_cases htarget : target = id
      · subst htarget
        rw [State.port_setPort, if_pos ⟨rfl, h⟩, Port.after, if_pos rfl, Port.asked, hinput]
        rfl
      · rw [State.port_setPort, if_neg fun h => htarget h.1, Port.after, if_neg htarget]

theorem port_writePort (h : id.index < s.ports.size) (target : PortId) (text : String) :
    (State.writePort target text s).2.port id =
        (s.port id).after s.files id (.output text (some target)) ∧
      (State.writePort target text s).2.ports.size = s.ports.size := by
  cases houtput : (s.port target).output with
  | none =>
      rw [State.writePort_of_none houtput]
      refine ⟨?_, rfl⟩
      by_cases htarget : target = id
      · subst htarget
        rw [Port.after, if_pos rfl, Port.told, houtput]
      · rw [Port.after, if_neg htarget]
  | some sink =>
      rw [State.writePort_of_some houtput]
      have hports := State.ports_deliver s text sink
      refine ⟨?_, by rw [State.size_setPort, hports]⟩
      rw [State.port_setPort, hports]
      by_cases htarget : target = id
      · subst htarget
        rw [if_pos ⟨rfl, h⟩, Port.after, if_pos rfl, Port.told, houtput, State.deliver_fst]
      · rw [if_neg fun h => htarget h.1, Port.after, if_neg htarget, State.port, hports, State.port]

/-- Carrying out an act leaves each port as the act says, and takes none away. -/
theorem port_carryOut (h : id.index < s.ports.size) (act : PortAct) :
    (act.carryOut s).2.port id = (s.port id).after s.files id act ∧
      s.ports.size ≤ (act.carryOut s).2.ports.size := by
  cases act with
  | openInput name =>
      simp only [PortAct.carryOut]
      split
      · exact ⟨rfl, Nat.le_refl _⟩
      · exact ⟨State.port_attached (s.report _) id _ h, State.size_le_attached (s.report _) _⟩
  | openOutput name =>
      simp only [PortAct.carryOut]
      split
      · exact ⟨rfl, Nat.le_refl _⟩
      · exact ⟨State.port_attached { s.report _ with files := _ } id _ h,
          State.size_le_attached { s.report _ with files := _ } _⟩
  | close target =>
      refine ⟨?_, Nat.le_of_eq (State.size_setPort s target _).symm⟩
      change (s.setPort target (s.port target).close).port id = _
      rw [State.port_setPort, Port.after]
      by_cases htarget : target = id
      · subst htarget
        rw [if_pos ⟨rfl, h⟩, if_pos rfl]
      · rw [if_neg fun h => htarget h.1, if_neg htarget]
  | read target =>
      obtain ⟨hport, hsize⟩ := port_readPort h target
      simp only [PortAct.carryOut]
      split
      next heq =>
        rw [heq] at hport hsize
        exact ⟨hport, Nat.le_of_eq hsize.symm⟩
      next heq =>
        rw [heq] at hport hsize
        exact ⟨hport, Nat.le_of_eq hsize.symm⟩
      next o t heq =>
        rw [heq] at hport hsize
        have hports := State.ports_makeRead t o
        refine ⟨?_, by rw [hports]; exact Nat.le_of_eq hsize.symm⟩
        rw [State.port, hports]
        exact hport
  | output text target =>
      cases target with
      | none => exact ⟨rfl, Nat.le_refl _⟩
      | some target =>
          obtain ⟨hport, hsize⟩ := port_writePort h target text
          simp only [PortAct.carryOut]
          split
          all_goals
            next heq =>
              rw [heq] at hport hsize
              exact ⟨hport, Nat.le_of_eq hsize.symm⟩
  | attach => exact ⟨State.port_attached s id _ h, State.size_le_attached s _⟩

end Acts

/-! ### What a move does to a port -/

/-- The act on ports that a task is. -/
def Task.act? : Task → Option PortAct
  | .application (.native _ p) args _ => Procedures.act? p args
  | _ => none

/-- The act on ports that a moment is about to carry out. -/
def Moment.act? (m : Moment) : Option PortAct :=
  match m.control with
  | .task task => task.act?
  | .answer _ => none

/-- What comes next: a transition, or new work for an answer; whoever gives new work may have made
more ports, and leaves those there are alone. -/
inductive Moment.Next : Moment → Moment → Prop where
  | work {m m'} (h : Transition m m') : Next m m'
  | begins {r s task t} (hsize : s.ports.size ≤ t.ports.size)
      (hports : ∀ id : PortId, id.index < s.ports.size → t.port id = s.port id) :
      Next ⟨.answer r, [], s⟩ ⟨.task task, [], t⟩

theorem Moment.Next.gives (r : Except Error Value) (s : State) (task : Task) :
    Next (.ending r s) ⟨.task task, [], s⟩ :=
  .begins (Nat.le_refl _) fun _ _ => rfl

section Moves

variable {task inner : Task} {pushed : List Frame} {s t : State} {r : Except Error Value}
  {m m' : Moment} {id : PortId} {act : PortAct}

/-- A call whose arguments make it no act does nothing to ports. -/
theorem Procedures.ports_call {p : Native} {args : Value} (h : act? p args = none) (s : State) :
    (call p args s).2.ports = s.ports := by
  by_cases hp : p.dealsWithPorts = true
  · obtain ⟨cause, hrefused, _⟩ := call_refused hp h
    rw [hrefused]
  · obtain ⟨f, hf⟩ := call_marking (by simpa using hp) args
    rw [hf]

/-- A task that is an act carries it out. -/
theorem Task.Ends.carries_out (h : task.Ends s r t) (hact : task.act? = some act) :
    ∃ e, act.carryOut (s.trace e) = (r, t) := by
  cases h with
  | @answered _ _ _ _ v _ _ h =>
      rw [Procedures.call_of_act? hact] at h
      exact ⟨_, (Procedures.answering_eq_iff (r := .ok v)).mp h⟩
  | @refused _ _ _ _ _ e _ h =>
      rw [Procedures.call_of_act? hact] at h
      exact ⟨_, (Procedures.answering_eq_iff (r := .error e)).mp h⟩
  | @notProcedure _ _ v _ h =>
      cases v with
      | native => cases h
      | _ => cases hact
  | _ => cases hact

theorem Task.Enters.act?_eq_none (h : task.Enters s inner pushed t) : task.act? = none := by
  cases h with
  | explicit h =>
      obtain rfl := Procedures.eq_eval_of_call h
      rfl
  | _ => rfl

/-- A moment that is about to carry out an act carries it out. -/
theorem Transition.carries_out (h : Transition m m') (hact : m.act? = some act) :
    ∃ e r, m'.control = .answer r ∧ act.carryOut (m.state.trace e) = (r, m'.state) := by
  cases h with
  | ends h =>
      obtain ⟨e, he⟩ := h.carries_out hact
      exact ⟨e, _, rfl, he⟩
  | enters h =>
      have hnone : Task.act? _ = none := h.act?_eq_none
      rw [show Task.act? _ = some act from hact] at hnone
      cases hnone
  | resumes _ => cases hact

theorem Task.Ends.ports_eq (h : task.Ends s r t) (hact : task.act? = none) : t.ports = s.ports := by
  cases h with
  | bound _ | free _ | constant _ _ | improper _ | unknown _ _ _ | rejected _ | notProcedure _ =>
      exact State.ports_trace _ _
  | @answered _ _ m _ _ args p h | @refused _ _ m _ args _ p h =>
      have hcall := Procedures.ports_call hact (s.trace (.applying (.native m p) args))
      rw [h, State.ports_trace] at hcall
      exact hcall
  | _ => rfl

theorem Task.Enters.ports_eq (h : task.Enters s inner pushed t) : t.ports = s.ports := by
  have hact := h.act?_eq_none
  cases h with
  | named _ _ | keyword _ _ _ | computed _ _ | body _ => exact State.ports_trace _ _
  | @explicit _ _ m _ _ _ args p h =>
      have hcall := Procedures.ports_call hact (s.trace (.applying (.native m p) args))
      rw [h, State.ports_trace] at hcall
      exact hcall
  | _ => rfl

/-- Where no act is carried out, nothing happens to ports. -/
theorem Transition.ports_eq (h : Transition m m') (hact : m.act? = none) :
    m'.state.ports = m.state.ports := by
  cases h with
  | ends h => exact h.ports_eq hact
  | enters h => exact h.ports_eq
  | resumes h => cases h <;> rfl

/-- A port is moved by the act that is carried out, if there is one, and no port is taken away. -/
theorem Moment.Next.port (h : Moment.Next m m') (hid : id.index < m.state.ports.size) :
    m'.state.port id =
        m.act?.elim (m.state.port id) ((m.state.port id).after m.state.files id) ∧
      m.state.ports.size ≤ m'.state.ports.size := by
  cases h with
  | begins hsize hports => exact ⟨hports id hid, hsize⟩
  | work h =>
      cases hact : m.act? with
      | none =>
          have hports := h.ports_eq hact
          refine ⟨?_, Nat.le_of_eq (by rw [hports])⟩
          rw [State.port, hports]
          rfl
      | some act =>
          obtain ⟨e, r, _, hstate⟩ := h.carries_out hact
          have hport := port_carryOut (s := m.state.trace e) (by simpa using hid) act
          rw [hstate] at hport
          simpa using hport

/-- A closed port is left as it is. -/
theorem Moment.Next.port_of_closed (h : Moment.Next m m') (hid : id.index < m.state.ports.size)
    (hclosed : (m.state.port id).isOpen = false) : m'.state.port id = m.state.port id := by
  rw [(h.port hid).1]
  cases m.act? with
  | none => rfl
  | some act => exact Port.after_of_closed hclosed

end Moves

/-! ### What the acts come to -/

/-- What a program is told of an answer of the reader. -/
inductive Reader.Told : Except Error (Option Datum) → Except Error Value → Prop where
  | error (e) : Told (.error e) (.error e)
  | datum {d v} (h : v.datum? = some d) : Told (.ok (some d)) (.ok v)
  | eof (m) : Told (.ok none) (.ok (.eof m))

namespace PortAct

variable {s : State} {id : PortId}

theorem carryOut_read_of_none (h : (s.port id).input = none) :
    (read id).carryOut s = (.error (.native .read .notReadable), s) := by
  simp only [carryOut, State.readPort_of_none h]

theorem carryOut_read_of_some {input : Input} (h : (s.port id).input = some input) :
    Reader.Told (input.readDatum s.files).1 ((read id).carryOut s).1 := by
  simp only [carryOut, State.readPort_of_some h]
  cases (input.readDatum s.files).1 with
  | error e => exact .error e
  | ok o =>
      cases o with
      | none => exact .eof _
      | some d => exact .datum (datum?_makeDatum d _)

theorem carryOut_output_of_none {text : String} (h : (s.port id).output = none) :
    (output text (some id)).carryOut s = (.error (.native .write .notWritable), s) := by
  simp only [carryOut, State.writePort_of_none h]

theorem carryOut_output_of_some (text : String) {sink : Sink} (h : (s.port id).output = some sink) :
    ∃ v, ((output text (some id)).carryOut s).1 = .ok v := by
  simp only [carryOut, State.writePort_of_some h]
  exact ⟨_, rfl⟩

end PortAct

/-! ### What a run does to a port -/

/-- The text that an act is to add to the content of a port. -/
def PortAct.text? (id : PortId) : PortAct → Option String
  | .output text (some target) => if target = id then some text else none
  | _ => none

/-- The text that a move wrote to a port. -/
def Move.text? (id : PortId) (move : Move) : Option String :=
  match move.after.control with
  | .answer (.ok _) => move.before.act?.bind (PortAct.text? id)
  | _ => none

/-- What a move answered to a read from a port. -/
def Move.answer? (id : PortId) (move : Move) : Option (Except Error Value) :=
  match move.after.control with
  | .answer r => if move.before.act? = some (.read id) then some r else none
  | .task _ => none

/-- The answers of the first calls of the reader on a stream, and where they leave it. -/
def Reader.calls : Nat → CharStream → List (Except Error (Option Datum)) × CharStream
  | 0, s => ([], s)
  | n + 1, s =>
      let (answers, t) := calls n s
      (answers ++ [(readDatum t).1], (readDatum t).2)

section Runs

variable {m m' : Moment} {moves : List Move} {id : PortId} {stream : CharStream}

theorem PortAct.eq_output_of_text? {act : PortAct} {text : String} (h : act.text? id = some text) :
    act = .output text (some id) := by
  unfold text? at h
  split at h
  · split at h
    · next htarget =>
        cases h
        rw [htarget]
    · cases h
  · cases h

/-- An act without text for a port leaves its content alone. -/
theorem Port.written_after_of_none {act : PortAct} (h : act.text? id = none) (p : Port)
    (fs : FileSystem) : (p.after fs id act).written = p.written := by
  unfold after
  split
  · split <;> rfl
  · split <;> rfl
  · next text target =>
      rw [if_neg]
      rintro rfl
      simp [PortAct.text?] at h
  · rfl

theorem Move.text?_of_none (h : m.act?.bind (PortAct.text? id) = none) :
    Move.text? id ⟨m, m'⟩ = none := by
  unfold text?
  split
  · exact h
  · rfl

/-- The content of a port grows by the text of a write that succeeds. -/
theorem Moment.Next.written (h : Moment.Next m m') (hid : id.index < m.state.ports.size) :
    (m'.state.port id).written =
      (m.state.port id).written ++ String.join (Move.text? id ⟨m, m'⟩).toList := by
  rw [(h.port hid).1]
  cases hact : m.act? with
  | none =>
      rw [Move.text?_of_none (by rw [hact]; rfl)]
      simp
  | some act =>
      cases htext : act.text? id with
      | none =>
          rw [Move.text?_of_none (by rw [hact]; exact htext), Option.elim_some,
            Port.written_after_of_none htext]
          simp
      | some text =>
          obtain rfl := PortAct.eq_output_of_text? htext
          rw [Option.elim_some, Port.after, if_pos rfl, Port.told]
          cases h with
          | begins => cases hact
          | work h =>
              obtain ⟨e, r, hcontrol, hacts⟩ := h.carries_out hact
              cases houtput : (m.state.port id).output with
              | none =>
                  rw [PortAct.carryOut_output_of_none (by simpa using houtput)] at hacts
                  obtain rfl := congrArg Prod.fst hacts
                  simp [Move.text?, hcontrol]
              | some sink =>
                  obtain ⟨v, hv⟩ := PortAct.carryOut_output_of_some text
                    (s := m.state.trace e) (by simpa using houtput)
                  obtain rfl : Except.ok v = r := hv.symm.trans (congrArg Prod.fst hacts)
                  simp [Move.text?, hcontrol, hact, htext]

/-- A port that stays open has its input taken on by reads alone. -/
theorem Port.input_after {p : Port} {fs : FileSystem} {act : PortAct} (hread : act ≠ .read id)
    (hopen : (p.after fs id act).isOpen = true) : (p.after fs id act).input = p.input := by
  unfold after at hopen ⊢
  split at hopen
  · split at hopen
    · rw [isOpen_close] at hopen
      cases hopen
    · next hother => rw [if_neg hother]
  · next target => rw [if_neg fun htarget => hread (by rw [htarget])]
  · split
    · rw [told]
      split <;> rfl
    · rfl
  · rfl

/-- From a port on bytes in memory a read answers what the reader answers, and no other move that
leaves the port open takes its input on. -/
theorem Moment.Next.answers (h : Moment.Next m m') (hid : id.index < m.state.ports.size)
    (hinput : (m.state.port id).input = some ⟨stream, .memory⟩)
    (hopen : (m'.state.port id).isOpen = true) :
    (Move.answer? id ⟨m, m'⟩ = none ∧ (m'.state.port id).input = some ⟨stream, .memory⟩) ∨
      ∃ r, Move.answer? id ⟨m, m'⟩ = some r ∧ Reader.Told (Reader.readDatum stream).1 r ∧
        (m'.state.port id).input = some ⟨(Reader.readDatum stream).2, .memory⟩ := by
  have hport := (h.port hid).1
  by_cases hact : m.act? = some (.read id)
  · cases h with
    | begins => cases hact
    | work h =>
        obtain ⟨e, r, hcontrol, hacts⟩ := h.carries_out hact
        have htold := PortAct.carryOut_read_of_some (s := m.state.trace e) (by simpa using hinput)
        rw [hacts] at htold
        refine .inr ⟨r, by simp [Move.answer?, hcontrol, hact], htold, ?_⟩
        rw [hport, hact, Option.elim_some, Port.after, if_pos rfl, Port.asked, hinput]
        rfl
  · refine .inl ⟨?_, ?_⟩
    · unfold Move.answer?
      split
      · rw [if_neg hact]
      · rfl
    · rw [hport] at hopen ⊢
      cases hacts : m.act? with
      | none => exact hinput
      | some act =>
          rw [hacts] at hopen hact
          exact (Port.input_after (fun hread => hact (by rw [hread])) hopen).trans hinput

theorem Passes.size_le (h : Passes Moment.Next m moves m') (hid : id.index < m.state.ports.size) :
    id.index < m'.state.ports.size := by
  induction h with
  | refl => exact hid
  | tail _ hmove ih => exact Nat.lt_of_lt_of_le ih (hmove.port ih).2

/-- A closed port stays as it is. -/
theorem Passes.port_of_closed (h : Passes Moment.Next m moves m')
    (hid : id.index < m.state.ports.size) (hclosed : (m.state.port id).isOpen = false) :
    m'.state.port id = m.state.port id := by
  induction h with
  | refl => rfl
  | tail h hmove ih => rw [hmove.port_of_closed (h.size_le hid) (by rw [ih]; exact hclosed), ih]

/-- The content of a port is followed by the texts of the writes that succeed. -/
theorem Passes.written (h : Passes Moment.Next m moves m') (hid : id.index < m.state.ports.size) :
    (m'.state.port id).written =
      (m.state.port id).written ++ String.join (moves.reverse.filterMap (Move.text? id)) := by
  induction h with
  | refl => simp
  | @tail moves before after h hmove ih =>
      rw [hmove.written (h.size_le hid), ih, List.reverse_cons, List.filterMap_append,
        String.join_append, String.append_assoc]
      cases htext : Move.text? id ⟨before, after⟩ <;> simp [htext]

/-- A port on bytes in memory that is not closed has answered reads as the reader answers call after
call. -/
theorem Passes.answers (h : Passes Moment.Next m moves m') (hid : id.index < m.state.ports.size)
    (hinput : (m.state.port id).input = some ⟨stream, .memory⟩)
    (hopen : (m'.state.port id).isOpen = true) :
    let answers := moves.reverse.filterMap (Move.answer? id)
    List.Forall₂ Reader.Told (Reader.calls answers.length stream).1 answers ∧
      (m'.state.port id).input = some ⟨(Reader.calls answers.length stream).2, .memory⟩ := by
  induction h with
  | refl => exact ⟨.nil, hinput⟩
  | @tail moves before after h hmove ih =>
      have hid' := h.size_le hid
      have hopen' : (before.state.port id).isOpen = true := by
        by_contra hclosed
        rw [hmove.port_of_closed hid' (by simpa using hclosed)] at hopen
        exact hclosed hopen
      obtain ⟨htold, hinput'⟩ := ih hopen'
      rw [List.reverse_cons, List.filterMap_append]
      rcases hmove.answers hid' hinput' hopen with ⟨hnone, hsame⟩ | ⟨r, hsome, hr, hnext⟩
      · have hlast : [Move.mk before after].filterMap (Move.answer? id) = [] := by simp [hnone]
        rw [hlast, List.append_nil]
        exact ⟨htold, hsame⟩
      · have hlast : [Move.mk before after].filterMap (Move.answer? id) = [r] := by simp [hsome]
        rw [hlast]
        dsimp only
        rw [List.length_append, List.length_singleton, Reader.calls]
        exact ⟨List.rel_append htold (.cons hr .nil), hnext⟩

end Runs

/-! ### Programs -/

section Programs

variable {i : Interpreter} {s t : State} {last r : Except Error Value}

/-- Evaluating what a text denotes is new work that runs to its answer. -/
theorem evaluateDatum_passes (heval : ∃ depth rounds, i.evaluate = eval depth rounds) {d : Datum}
    (h : i.evaluateDatum d s = some (r, t)) (last : Except Error Value) :
    ∃ moves, Passes Moment.Next (.ending last s) moves (.ending r t) := by
  obtain ⟨depth, rounds, heval⟩ := heval
  obtain ⟨f, hf⟩ := State.makeDatum_marks d
  have hrun : eval depth rounds (State.makeDatum d s).1 i.root (State.makeDatum d s).2 =
      some (r, t) := by
    rw [← heval]
    exact h
  obtain ⟨moves, hmoves⟩ := eval_passes hrun
  have hports : (State.makeDatum d s).2.ports = s.ports := by rw [hf]
  have hbegins : Moment.Next (.ending last s)
      (.begin (State.makeDatum d s).1 i.root (State.makeDatum d s).2) :=
    .begins (Nat.le_of_eq (by rw [hports])) fun id _ => by rw [State.port, hports, State.port]
  exact ⟨_, (Passes.refl.tail hbegins).trans (hmoves.mono .work)⟩

theorem runFrom_passes (heval : ∃ depth rounds, i.evaluate = eval depth rounds) {rounds : Nat}
    {input : Input} {seen : List Value} {report : Report}
    (h : i.runFrom rounds input seen s = some (report, t)) (last : Except Error Value) :
    ∃ moves last', Passes Moment.Next (.ending last s) moves (.ending last' t) := by
  refine i.runFrom_preserves (P := fun _ u => ∃ moves last',
    Passes Moment.Next (.ending last s) moves (.ending last' u)) ?_ h ⟨[], last, .refl⟩
  rintro d _ u r w ⟨moves, last', hmoves⟩ hrun
  obtain ⟨later, hlater⟩ := evaluateDatum_passes heval hrun last'
  exact ⟨_, r, hmoves.trans hlater⟩

theorem dialogueFrom_passes (heval : ∃ depth rounds, i.evaluate = eval depth rounds) {rounds : Nat}
    {input : Input} {seen reports : List (Except Error Value)}
    (h : i.dialogueFrom rounds input seen s = some (reports, t)) (last : Except Error Value) :
    ∃ moves last', Passes Moment.Next (.ending last s) moves (.ending last' t) := by
  induction rounds generalizing input seen last s with
  | zero => cases h
  | succ rounds ih =>
      rw [Interpreter.dialogueFrom, Interpreter.round] at h
      cases hread : input.readDatum s.files with
      | mk answer input' =>
          rw [hread] at h
          rcases answer with e | _ | d
          · exact ih h last
          · cases h
            exact ⟨[], last, .refl⟩
          · cases hrun : i.evaluateDatum d s with
            | none =>
                simp only [hrun] at h
                cases h
            | some answer =>
                obtain ⟨r, u⟩ := answer
                simp only [hrun] at h
                obtain ⟨moves, hmoves⟩ := evaluateDatum_passes heval hrun last
                obtain ⟨later, last', hlater⟩ := ih h r
                exact ⟨_, last', hmoves.trans hlater⟩

end Programs

/-! ### Calls on one port -/

namespace State

variable {s : State} {id : PortId}

/-- Closing takes both sides away, also where there is no port. -/
theorem port_closePort : (s.closePort id).port id = (s.port id).close := by
  rw [closePort, port_setPort]
  split
  · rfl
  · next h =>
      have hout : s.ports.size ≤ id.index := Nat.le_of_not_lt (by simpa using h)
      rw [port, Array.getD_eq_getD_getElem?, Array.getElem?_eq_none hout]
      rfl

theorem setPort_self : s.setPort id (s.port id) = s := by
  have hports : s.ports.setIfInBounds id.index (s.port id) = s.ports := by
    refine Array.ext_getElem? fun j => ?_
    rw [Array.getElem?_setIfInBounds]
    split
    · next h =>
        subst h
        by_cases hid : id.index < s.ports.size <;>
          simp [port, Array.getD_eq_getD_getElem?, hid]
    · rfl
  rw [setPort, hports]

/-- Closing a closed port changes nothing. -/
theorem closePort_of_closed (h : (s.port id).isOpen = false) : s.closePort id = s := by
  rw [closePort, Port.close_of_closed h, setPort_self]

end State

/-- In every run, through all work that is given and whatever it comes to: a closed port stays as it
is; the content of a port is what it was and then the texts of the `write`, `display` and `newline`
calls that succeeded on it; and as long as a port on bytes in memory is not closed, the calls of
`read` on it have answered what the reader answers, call after call, on those bytes.  Closing
succeeds on every port, takes its sides away, and on a closed one changes nothing.  What needs a side
that a port lacks fails in the name of a procedure and leaves the state as it is.  The programs that
an interpreter runs, or holds a dialogue on, are such runs. -/
theorem port_life_cycle :
    (∀ (m m' : Moment) (moves : List Move) (id : PortId), Passes Moment.Next m moves m' →
      id.index < m.state.ports.size →
        ((m.state.port id).isOpen = false → m'.state.port id = m.state.port id) ∧
        (m'.state.port id).written =
          (m.state.port id).written ++ String.join (moves.reverse.filterMap (Move.text? id)) ∧
        ∀ stream, (m.state.port id).input = some ⟨stream, .memory⟩ →
          (m'.state.port id).isOpen = true →
            let answers := moves.reverse.filterMap (Move.answer? id)
            List.Forall₂ Reader.Told (Reader.calls answers.length stream).1 answers ∧
              (m'.state.port id).input =
                some ⟨(Reader.calls answers.length stream).2, .memory⟩) ∧
    (∀ (s : State) (args : Value) (mark : Mark) (id : PortId),
      args.toList? = some [.port mark id] →
        Procedures.call .closePort args s =
          (.ok (.value (.unspecified ⟨s.nextMark⟩)), (s.closePort id).marked) ∧
        (s.closePort id).port id = (s.port id).close ∧
        ((s.port id).isOpen = false → s.closePort id = s)) ∧
    (∀ (s : State) (p : Native) (args : Value) (id : PortId),
      (Procedures.act? p args = some (.read id) ∧
          ((s.port id).isOpen = false ∨ (s.port id).input = none)) ∨
        (∃ text, Procedures.act? p args = some (.output text (some id)) ∧
          ((s.port id).isOpen = false ∨ (s.port id).output = none)) →
      ∃ q cause, Procedures.call p args s = (.error (.native q cause), s)) ∧
    (∀ (depth rounds limit : Nat) (root : EnvId) (input : Input) (s t : State)
      (last : Except Error Value),
      let i : Interpreter := ⟨eval depth rounds, root, limit⟩
      (∀ report, i.run input s = some (report, t) →
        ∃ moves last', Passes Moment.Next (.ending last s) moves (.ending last' t)) ∧
      ∀ reports, i.dialogue input s = some (reports, t) →
        ∃ moves last', Passes Moment.Next (.ending last s) moves (.ending last' t)) := by
  refine ⟨?_, ?_, ?_, ?_⟩
  · intro m m' moves id h hid
    exact ⟨h.port_of_closed hid, h.written hid, fun stream => h.answers hid⟩
  · intro s args mark id hargs
    refine ⟨?_, State.port_closePort, State.closePort_of_closed⟩
    have hact : Procedures.act? .closePort args = some (.close id) := by
      simp only [Procedures.act?, hargs]
    rw [Procedures.call_of_act? hact]
    exact (Procedures.answering_eq_iff (r := .ok _)).mpr rfl
  · rintro s p args id (⟨hact, hlacks⟩ | ⟨text, hact, hlacks⟩)
    · have hnone : (s.port id).input = none :=
        hlacks.elim (fun hclosed => (Port.sides_eq_none hclosed).1) fun h => h
      rw [Procedures.call_of_act? hact]
      exact ⟨_, _, (Procedures.answering_eq_iff (r := .error _)).mpr
        (PortAct.carryOut_read_of_none hnone)⟩
    · have hnone : (s.port id).output = none :=
        hlacks.elim (fun hclosed => (Port.sides_eq_none hclosed).2) fun h => h
      rw [Procedures.call_of_act? hact]
      exact ⟨_, _, (Procedures.answering_eq_iff (r := .error _)).mpr
        (PortAct.carryOut_output_of_none hnone)⟩
  · intro depth rounds limit root input s t last i
    exact ⟨fun report h => runFrom_passes ⟨depth, rounds, rfl⟩ h last,
      fun reports h => dialogueFrom_passes ⟨depth, rounds, rfl⟩ h last⟩

/-- A port on the text `7` and one that text can be written to, which holds `6` already. -/
def State.withTwoPorts : State :=
  { State.initial .empty with
    ports := #[.ofInput ⟨⟨.ofList ['7'], .ofList [], false⟩, .memory⟩, ⟨none, some .memory, "6"⟩] }

/-- Reading, displaying, closing, a newline that comes too late, reading again: the display alone is
added to the content, and the two reads answer a number and the end. -/
theorem port_life_cycle_interleaved :
    ∃ moves m moves' m',
      Passes Moment.Next (.ending (.ok (.port ⟨0⟩ ⟨0⟩)) .withTwoPorts) moves m ∧
      Passes Moment.Next m moves' m' ∧
      (m.state.port ⟨1⟩).isOpen = false ∧ m'.state.port ⟨1⟩ = m.state.port ⟨1⟩ ∧
      (m'.state.port ⟨1⟩).written = "6" ++ String.join ["x"] ∧
      List.Forall₂ Reader.Told (Reader.calls 2 ⟨.ofList ['7'], .ofList [], false⟩).1
        [.ok (.number ⟨0⟩ 7), .ok (.eof ⟨3⟩)] := by
  let call (p : Native) (vs : List Value) : Task :=
    .application (.native ⟨0⟩ p) (vs.foldr (.pair ⟨0⟩) (.nil ⟨0⟩)) ⟨0⟩
  let closed : State :=
    { State.withTwoPorts with
      nextMark := 3
      ports := #[.ofInput ⟨⟨.ofList [], .ofList [], true⟩, .memory⟩, ⟨none, none, "6x"⟩] }
  have hclosing : Passes Moment.Next (.ending (.ok (.port ⟨0⟩ ⟨0⟩)) .withTwoPorts) _
      (.ending (.ok (.unspecified ⟨2⟩)) closed) :=
    Passes.refl
      |>.tail (.gives _ _ (call .read [.port ⟨0⟩ ⟨0⟩]))
      |>.tail (.work (.ends (.answered rfl)))
      |>.tail (.gives _ _ (call .display [.string ⟨0⟩ "x", .port ⟨0⟩ ⟨1⟩]))
      |>.tail (.work (.ends (.answered rfl)))
      |>.tail (.gives _ _ (call .closePort [.port ⟨0⟩ ⟨1⟩]))
      |>.tail (.work (.ends (.answered rfl)))
  have hlater : Passes Moment.Next (.ending (.ok (.unspecified ⟨2⟩)) closed) _ _ :=
    Passes.refl
      |>.tail (.gives _ _ (call .newline [.port ⟨0⟩ ⟨1⟩]))
      |>.tail (.work (.ends (.refused rfl)))
      |>.tail (.gives _ _ (call .read [.port ⟨0⟩ ⟨0⟩]))
      |>.tail (.work (.ends (.answered rfl)))
  have hrun := port_life_cycle.1 _ _ _ ⟨1⟩ (hclosing.trans hlater) (by decide)
  have hreads := port_life_cycle.1 _ _ _ ⟨0⟩ (hclosing.trans hlater) (by decide)
  have hclosed := port_life_cycle.1 _ _ _ ⟨1⟩ hlater (by decide)
  exact ⟨_, _, _, _, hclosing, hlater, rfl, hclosed.1 rfl, hrun.2.1, (hreads.2.2 _ rfl rfl).1⟩

end TinyLisp
