import TinyLisp.Proofs.Ports.Files
import TinyLisp.Proofs.Ports.LifeCycle
import TinyLisp.Proofs.Text.Lines

/-!
Data written through ports and read back.  Values are written by calls of `write`, each with a call
of `newline` behind it; the text opened as an input then answers calls of `read` with the same data.
Main statement: `written_data_are_read_back`.
-/

namespace TinyLisp

open Text

/-! ### Calls in a row -/

namespace Procedures

/-- Calls made one after another, and their results.  Between two calls anything may happen that
leaves ports and files alone. -/
inductive Calls : State → List (Native × Value) → List (Except Error Answer) → State → Prop where
  | none {s} : Calls s [] [] s
  | cons {s s' t u p args r requests results} (hports : s'.ports = s.ports)
      (hfiles : s'.files = s.files) (hcall : call p args s' = (r, t))
      (hmore : Calls t requests results u) :
      Calls s ((p, args) :: requests) (r :: results) u

theorem exists_calls (s : State) (requests : List (Native × Value)) :
    ∃ results t, Calls s requests results t := by
  induction requests generalizing s with
  | nil => exact ⟨[], s, .none⟩
  | cons request requests ih =>
      obtain ⟨results, t, hmore⟩ := ih (call request.1 request.2 s).2
      exact ⟨_, t, .cons rfl rfl rfl hmore⟩

/-- Calls that write values to a port, each with a newline behind it. -/
inductive Writes (port : Value) : List Value → List (Native × Value) → Prop where
  | none : Writes port [] []
  | cons {v vs args args' requests} (hwrite : args.toList? = some [v, port])
      (hnewline : args'.toList? = some [port]) (hmore : Writes port vs requests) :
      Writes port (v :: vs) ((.write, args) :: (.newline, args') :: requests)

/-- Calls that read from a port, as many as there are. -/
def Reads (port : Value) (requests : List (Native × Value)) : Prop :=
  ∀ request ∈ requests, request.1 = .read ∧ request.2.toList? = some [port]

/-- Results that are like some values, one by one, and then the end of the input for good. -/
inductive ReadBack : List Value → List (Except Error Answer) → Prop where
  | stop (vs) : ReadBack vs []
  | value {v w vs results} (h : w.isAlike v = true) (hmore : ReadBack vs results) :
      ReadBack (v :: vs) (.ok (.value w) :: results)
  | eof {m results} (hmore : ReadBack [] results) :
      ReadBack [] (.ok (.value (.eof m)) :: results)

/-- Calls that succeed with nothing to say. -/
def AllDone (results : List (Except Error Answer)) : Prop :=
  ∀ r ∈ results, ∃ m, r = .ok (.value (.unspecified m))

end Procedures

open Procedures

/-! ### Writing -/

section Writing

variable {s t : State} {id : PortId}

theorem State.lt_of_output {sink : Sink} (h : (s.port id).output = some sink) :
    id.index < s.ports.size := by
  refine Nat.lt_of_not_le fun hout => ?_
  rw [port, Array.getD_eq_getD_getElem?, Array.getElem?_eq_none hout] at h
  cases h

theorem State.lt_of_input {i : Input} (h : (s.port id).input = some i) :
    id.index < s.ports.size := by
  refine Nat.lt_of_not_le fun hout => ?_
  rw [port, Array.getD_eq_getD_getElem?, Array.getElem?_eq_none hout] at h
  cases h

/-- A text for a port that can be written to is sent out and remembered. -/
theorem Procedures.call_output {p : Native} {args : Value} {text : String} {sink : Sink}
    (hact : act? p args = some (.output text (some id))) (h : (s.port id).output = some sink) :
    ∃ m t, call p args s = (.ok (.value (.unspecified m)), t) ∧
      (t.port id).output = some (sink.after text) ∧
      (t.port id).written = (s.port id).written ++ text ∧
      t.files = (State.deliver text sink s).2.files := by
  let next : Port := { s.port id with
    output := some (State.deliver text sink s).1, written := (s.port id).written ++ text }
  let t : State := ((State.deliver text sink s).2.setPort id next).marked
  have hlt : id.index < (State.deliver text sink s).2.ports.size := by
    rw [State.ports_deliver]
    exact State.lt_of_output h
  have hport : t.port id = next := by
    change (State.setPort _ id next).port id = next
    rw [State.port_setPort, if_pos ⟨rfl, hlt⟩]
  refine ⟨⟨(State.deliver text sink s).2.nextMark⟩, t, ?_, ?_, ?_, rfl⟩
  · rw [call_of_act? hact]
    refine (answering_eq_iff (r := .ok _)).mpr ?_
    simp only [PortAct.carryOut, State.writePort_of_some h]
    rfl
  · rw [hport, ← State.deliver_fst s]
  · rw [hport]

/-- A file that a port writes to holds exactly what was written. -/
structure State.Holds (s : State) (id : PortId) (path : Path) (text : String) : Prop where
  sink : (s.port id).output = some (.file path (encode text).length)
  file : s.files.find? path = some (.file (encode text))

/-- What a port adds to its file comes behind what it wrote before. -/
theorem State.Holds.deliver {path : Path} {text more : String} (h : s.Holds id path text)
    (hsink : (t.port id).output = some ((Sink.file path (encode text).length).after more))
    (hfiles : t.files = (State.deliver more (.file path (encode text).length) s).2.files) :
    t.Holds id path (text ++ more) ∧ s.files.Within t.files := by
  have hcontent : s.files.content path = encode text := by simp [FileSystem.content, h.file]
  have hencode : encode (text ++ more) = encode text ++ encode more := by simp [encode]
  have hfile : s.files.find? path ≠ some .directory := by simp [h.file]
  have hwritten : t.files = s.files.insert path (.file (encode (text ++ more))) := by
    rw [hfiles, hencode]
    change s.files.write path _ _ = _
    rw [FileSystem.write, hcontent, spliceBytes_length]
  refine ⟨⟨?_, ?_⟩, ?_⟩
  · rw [hsink, hencode, List.length_append]
    rfl
  · rw [hwritten]
    exact FileSystem.find?_insert_of_ne_directory hfile _
  · rw [hwritten]
    exact FileSystem.within_insert hfile _

section Row

variable {u : State} {requests : List (Native × Value)} {results : List (Except Error Answer)}

/-- The first of some calls writes a text to a port: it succeeds, and the text is added to the port
and to the file it writes to. -/
theorem Procedures.Calls.output {p : Native} {args : Value} {text : String}
    (hcalls : Calls s ((p, args) :: requests) results u)
    (hact : act? p args = some (.output text (some id)))
    (houtput : (s.port id).output.isSome = true) :
    ∃ m t results', results = .ok (.value (.unspecified m)) :: results' ∧
      Calls t requests results' u ∧ (t.port id).output.isSome = true ∧
      (t.port id).written = (s.port id).written ++ text ∧
      ∀ path before, s.Holds id path before →
        t.Holds id path (before ++ text) ∧ s.files.Within t.files := by
  obtain ⟨sink, hsink⟩ := Option.isSome_iff_exists.mp houtput
  cases hcalls with
  | @cons _ s' t _ _ _ r _ results' hports hfiles hcall hmore =>
      have hport : s'.port id = s.port id := by rw [State.port, hports, State.port]
      obtain ⟨m, t', hrun, hafter, hwritten, hsent⟩ := call_output hact (hport ▸ hsink)
      rw [hcall] at hrun
      cases hrun
      rw [hport] at hwritten
      refine ⟨m, t, results', rfl, hmore, by rw [hafter]; rfl, hwritten,
        fun path before hholds => ?_⟩
      obtain rfl : .file path (encode before).length = sink :=
        Option.some.inj (hholds.sink.symm.trans hsink)
      have hholds' : s'.Holds id path before :=
        ⟨hport ▸ hholds.sink, hfiles ▸ hholds.file⟩
      rw [← hfiles]
      exact hholds'.deliver hafter hsent

/-- Calls that write values to a port add their lines to it, and to the file it writes to. -/
theorem Procedures.Calls.writes {mark : Mark} {vs : List Value}
    (hwrites : Writes (.port mark id) vs requests) (hcalls : Calls s requests results t)
    (houtput : (s.port id).output.isSome = true) :
    AllDone results ∧ (t.port id).written = (s.port id).written ++ Value.lines vs ∧
      ∀ path before, s.Holds id path before →
        t.Holds id path (before ++ Value.lines vs) ∧ s.files.Within t.files := by
  induction hwrites generalizing s results with
  | none =>
      cases hcalls
      refine ⟨List.forall_mem_nil _, by simp, fun path before h => ⟨by simpa using h, fun _ h => h⟩⟩
  | @cons v vs args args' requests hwrite hnewline _ ih =>
      have hact : act? .write args = some (.output v.text (some id)) := by
        simp only [act?, hwrite]
      have hact' : act? .newline args' = some (.output "\n" (some id)) := by
        simp only [act?, hnewline]
      obtain ⟨m, s₁, results, rfl, hcalls, houtput, hwritten, hholds⟩ := hcalls.output hact houtput
      obtain ⟨m', s₂, results, rfl, hcalls, houtput, hwritten', hholds'⟩ :=
        hcalls.output hact' houtput
      obtain ⟨hdone, hlines, hmore⟩ := ih hcalls houtput
      refine ⟨?_, ?_, fun path before h => ?_⟩
      · exact List.forall_mem_cons.mpr ⟨⟨m, rfl⟩, List.forall_mem_cons.mpr ⟨⟨m', rfl⟩, hdone⟩⟩
      · rw [hlines, hwritten', hwritten, Value.lines_cons]
        simp only [String.append_assoc]
      · obtain ⟨h₁, hwithin₁⟩ := hholds path before h
        obtain ⟨h₂, hwithin₂⟩ := hholds' path _ h₁
        obtain ⟨h₃, hwithin₃⟩ := hmore path _ h₂
        refine ⟨?_, fun other hother => hwithin₃ _ (hwithin₂ _ (hwithin₁ _ hother))⟩
        rw [Value.lines_cons]
        simpa only [String.append_assoc] using h₃

end Row

end Writing

/-! ### Reading -/

section Reading

variable {s t : State} {id : PortId} {mark : Mark} {requests : List (Native × Value)}
  {results : List (Except Error Answer)}

theorem PortAct.files_carryOut_read (id : PortId) (s : State) :
    ((read id).carryOut s).2.files = s.files := by
  cases hinput : (s.port id).input with
  | none => rw [carryOut_read_of_none hinput]
  | some i =>
      simp only [carryOut, State.readPort_of_some hinput]
      cases (i.readDatum s.files).1 with
      | error e => rfl
      | ok o =>
          obtain ⟨f, hf⟩ := State.makeRead_marks o
          dsimp only
          rw [hf]
          rfl

/-- A call that reads from a port answers what its input has next, and takes the input on. -/
theorem Procedures.call_read {args : Value} {i : Input} {answer : Option Datum}
    (hargs : args.toList? = some [.port mark id]) (hinput : (s.port id).input = some i)
    (hread : (i.readDatum s.files).1 = .ok answer) :
    ∃ w t, call .read args s = (.ok (.value w), t) ∧ Reader.Told (.ok answer) (.ok w) ∧
      (t.port id).input = some (i.readDatum s.files).2 ∧ t.files = s.files := by
  have hact : act? .read args = some (.read id) := by simp only [act?, hargs]
  have htold := PortAct.carryOut_read_of_some hinput
  have hport := (port_carryOut (State.lt_of_input hinput) (.read id)).1
  have hfiles := PortAct.files_carryOut_read id s
  rw [Port.after, if_pos rfl, Port.asked, hinput] at hport
  rw [hread] at htold
  rcases hrun : (PortAct.read id).carryOut s with ⟨r, t⟩
  rw [hrun] at htold hport hfiles
  cases r with
  | error e => cases htold
  | ok w =>
      refine ⟨w, t, ?_, htold, by rw [hport]; rfl, hfiles⟩
      rw [call_of_act? hact]
      exact (answering_eq_iff (r := .ok w)).mpr hrun

/-- Calls that read from a port whose input goes on with the lines of readable values answer these
values, and then the end. -/
theorem Procedures.Calls.reads (hreads : Reads (.port mark id) requests)
    (hcalls : Calls s requests results t) {i : Input} (hinput : (s.port id).input = some i)
    {cs : List Char} (hoffers : i.Offers s.files cs) {vs : List Value}
    (hgap : Gap cs (Value.lines vs).toList) (hvs : ∀ v ∈ vs, v.Readable) :
    ReadBack vs results := by
  induction hcalls generalizing i cs vs with
  | none => exact .stop vs
  | @cons s s' t u p args r requests results hports hfiles hcall _ ih =>
      obtain ⟨⟨hp, hargs⟩, hmore⟩ := List.forall_mem_cons.mp hreads
      obtain rfl : p = .read := hp
      have hinput' : (s'.port id).input = some i := by rw [State.port, hports]; exact hinput
      rw [← hfiles] at hoffers
      cases vs with
      | nil =>
          obtain ⟨hread, hnext⟩ := hoffers.reads_end hgap
          obtain ⟨w, t', hrun, htold, hrest, hsame⟩ := call_read hargs hinput' hread
          rw [hcall] at hrun
          cases hrun
          cases htold
          exact .eof (ih hmore hrest (hsame ▸ hnext) (.none []) hvs)
      | cons v vs =>
          obtain ⟨hv, hvs⟩ := List.forall_mem_cons.mp hvs
          obtain ⟨d, hd, _⟩ := Value.readable_iff.mp hv
          obtain ⟨hread, rest, hnext, hgap'⟩ := hoffers.reads_line hgap hv hd
          obtain ⟨w, t', hrun, htold, hrest, hsame⟩ := call_read hargs hinput' hread
          rw [hcall] at hrun
          cases hrun
          cases htold with
          | datum hw =>
              exact .value ((Value.isAlike_iff_of_datum? hw).mpr hd)
                (ih hmore hrest (hsame ▸ hnext) hgap' hvs)

end Reading

/-! ### Files -/

section Opening

variable {s t : State} {args : Value} {mark : Mark} {name : String}

theorem State.port_attached_self (s : State) (p : Port) :
    (s.attached p).port ⟨s.ports.size⟩ = p := by
  simp [port, attached, Array.getD_eq_getD_getElem?]

/-- A port opened for output writes to a file that is empty at first. -/
theorem Procedures.call_openOutput (hargs : args.toList? = some [.string mark name]) {port : Value}
    (h : call .openOutput args s = (.ok (.value port), t)) :
    ∃ mark id path, port = .port mark id ∧ s.files.create name = .ok (path, t.files) ∧
      t.Holds id path "" := by
  have hact : act? .openOutput args = some (.openOutput name) := by simp only [act?, hargs]
  rw [call_of_act? hact] at h
  have hrun := (answering_eq_iff (r := .ok port)).mp h
  simp only [PortAct.carryOut] at hrun
  split at hrun
  · cases hrun
  · next path files hcreate =>
      cases hrun
      refine ⟨_, _, path, rfl, hcreate, ?_, ?_⟩
      · exact congrArg Port.output (State.port_attached_self { s.report _ with files := files } _)
      · obtain ⟨_, _, _, _, _, _, _, _, hfree, hfiles⟩ := FileSystem.create_eq_ok hcreate
        change files.find? path = some (.file [])
        rw [hfiles]
        exact FileSystem.find?_insert_of_ne_directory hfree _

/-- A file that is there can be opened for input, from its start. -/
theorem Procedures.call_openInput (hargs : args.toList? = some [.string mark name]) {path : Path}
    {node : Node} (hlocate : s.files.locate name = .ok (path, node)) :
    ∃ mark id t, call .openInput args s = (.ok (.value (.port mark id)), t) ∧
      (t.port id).input = some (.ofNode path node) ∧ t.files = s.files := by
  have hact : act? .openInput args = some (.openInput name) := by simp only [act?, hargs]
  let opened := (s.report (.openingInput name)).attached (.ofInput (.ofNode path node))
  refine ⟨⟨s.nextMark⟩, ⟨s.ports.size⟩, opened.marked, ?_, ?_, rfl⟩
  · rw [call_of_act? hact]
    refine (answering_eq_iff (r := .ok _)).mpr ?_
    simp only [PortAct.carryOut, hlocate]
    rfl
  · exact congrArg Port.input (State.port_attached_self (s.report _) _)

end Opening

/-- Readable values written to a port, each with a newline behind it: every call succeeds and the
port has received the lines of the values.  Reading from that text in memory answers values like the
ones written, in their order, and then the end of the input for good.  If the port was opened on a
file, that file can be opened again by its name and reading from it answers the same.  Whatever else
happens between the calls to other parts of the state makes no difference. -/
theorem written_data_are_read_back (vs : List Value) (hvs : ∀ v ∈ vs, v.Readable) :
    (∀ s requests, ∃ results t, Calls s requests results t) ∧
    (∀ s t id mark requests results, (s.port id).output.isSome = true →
      (s.port id).written = "" → Writes (.port mark id) vs requests →
      Calls s requests results t →
        AllDone results ∧ (t.port id).written = Value.lines vs ∧
        ∀ u w id' mark' requests' results',
          (u.port id').input = some (.ofText (t.port id).written) →
          Reads (.port mark' id') requests' → Calls u requests' results' w →
            ReadBack vs results') ∧
    ∀ s s' t t' name args args' mark mark' port requests results,
      args.toList? = some [.string mark name] → args'.toList? = some [.string mark' name] →
      Procedures.call .openOutput args s = (.ok (.value port), s') → Writes port vs requests →
      Calls s' requests results t → t'.files = t.files →
        AllDone results ∧ ∃ port' u, Procedures.call .openInput args' t' = (.ok (.value port'), u) ∧
          ∀ w requests' results', Reads port' requests' → Calls u requests' results' w →
            ReadBack vs results' := by
  refine ⟨exists_calls, ?_, ?_⟩
  · intro s t id mark requests results houtput hempty hwrites hcalls
    obtain ⟨hdone, hwritten, _⟩ := hcalls.writes hwrites houtput
    rw [hempty, String.empty_append] at hwritten
    refine ⟨hdone, hwritten, ?_⟩
    intro u w id' mark' requests' results' hinput hreads hcalls'
    rw [hwritten] at hinput
    exact hcalls'.reads hreads hinput (Input.offers_ofText u.files _) (.none _) hvs
  · intro s s' t t' name args args' mark mark' port requests results hargs hargs' hopen hwrites
      hcalls hfiles
    obtain ⟨_, id, path, rfl, hcreate, hholds⟩ := call_openOutput hargs hopen
    have houtput : (s'.port id).output.isSome = true := by rw [hholds.sink]; rfl
    obtain ⟨hdone, _, hfile⟩ := hcalls.writes hwrites houtput
    obtain ⟨hlines, hwithin⟩ := hfile path "" hholds
    rw [String.empty_append] at hlines
    obtain ⟨_, _, _, _, _, _, _, _, hfree, hmade⟩ := FileSystem.create_eq_ok hcreate
    have hkept : s.files.Within t'.files := by
      intro other hother
      rw [hfiles]
      refine hwithin other ?_
      rw [hmade]
      exact FileSystem.within_insert hfree _ other hother
    have hnode : t'.files.find? path = some (.file (encode (Value.lines vs))) := by
      rw [hfiles]
      exact hlines.file
    have hlocate := FileSystem.locate_of_create hcreate hkept hnode
    obtain ⟨_, id', u, hrun, hinput, hsame⟩ := call_openInput hargs' hlocate
    refine ⟨hdone, _, u, hrun, fun w requests' results' hreads hcalls' => ?_⟩
    have hcontent : u.files.content path = encode (Value.lines vs) := by
      rw [hsame, FileSystem.content, hnode]
    exact hcalls'.reads hreads hinput (Input.offers_ofNode hcontent) (.none _) hvs

/-- A port that text can be written to, and one on a text in memory. -/
def State.withSinkAndText (text : String) : State :=
  { State.initial .empty with ports := #[.ofSink .memory, .ofInput (.ofText text)] }

/-- A string with a newline and an unmatched parenthesis in it, and a dotted pair. -/
def hardToRead : List Value :=
  [.string ⟨0⟩ "a\n(;", .pair ⟨1⟩ (.number ⟨2⟩ 7) (.symbol ⟨3⟩ "x")]

/-- Both are written to a port in memory and to a file, and read back with one call more than there
are values. -/
theorem written_data_are_read_back_hard :
    let list (vs : List Value) : Value := vs.foldr (.pair ⟨0⟩) (.nil ⟨0⟩)
    let writes (port : Value) : List (Native × Value) :=
      hardToRead.flatMap fun v => [(.write, list [v, port]), (.newline, list [port])]
    let reads (port : Value) : List (Native × Value) := List.replicate 3 (.read, list [port])
    (∃ results t results' w,
      Calls (.withSinkAndText "") (writes (.port ⟨0⟩ ⟨0⟩)) results t ∧ AllDone results ∧
      (t.port ⟨0⟩).written = "\"a\n(;\"\n(7 . x)\n" ∧
      Calls (.withSinkAndText (t.port ⟨0⟩).written) (reads (.port ⟨0⟩ ⟨1⟩)) results' w ∧
      ReadBack hardToRead results') ∧
    ∃ port s' results t port' u results' w,
      Procedures.call .openOutput (list [.string ⟨0⟩ "out"]) (.initial .empty) =
        (.ok (.value port), s') ∧
      Calls s' (writes port) results t ∧ AllDone results ∧
      Procedures.call .openInput (list [.string ⟨0⟩ "out"]) t = (.ok (.value port'), u) ∧
      Calls u (reads port') results' w ∧ ReadBack hardToRead results' := by
  intro list writes reads
  have hreadable : ∀ v ∈ hardToRead, v.Readable := by
    have hstring : '"' ∉ "a\n(;".toList := by decide
    have hseven : (0 : Int) ≤ 7 := by decide
    have hx : Text.IsName "x".toList := by decide +kernel
    exact List.forall_mem_cons.mpr ⟨hstring, List.forall_mem_singleton.mpr ⟨hseven, nofun, hx⟩⟩
  have hwrites (port : Value) : Writes port hardToRead (writes port) :=
    .cons rfl rfl (.cons rfl rfl .none)
  have hreads (port : Value) : Procedures.Reads port (reads port) := by
    intro request hrequest
    rw [List.eq_of_mem_replicate hrequest]
    exact ⟨rfl, rfl⟩
  obtain ⟨hcalls, hmemory, hfile⟩ := written_data_are_read_back hardToRead hreadable
  constructor
  · obtain ⟨results, t, hwritten⟩ := hcalls (.withSinkAndText "") (writes (.port ⟨0⟩ ⟨0⟩))
    obtain ⟨hdone, htext, hback⟩ := hmemory _ _ _ _ _ _ rfl rfl (hwrites _) hwritten
    obtain ⟨results', w, hread⟩ :=
      hcalls (.withSinkAndText (t.port ⟨0⟩).written) (reads (.port ⟨0⟩ ⟨1⟩))
    exact ⟨results, t, results', w, hwritten, hdone, htext.trans (by decide), hread,
      hback _ _ _ _ _ _ rfl (hreads _) hread⟩
  · obtain ⟨port, s', hopen⟩ : ∃ port s', Procedures.call .openOutput
        (list [.string ⟨0⟩ "out"]) (.initial .empty) = (.ok (.value port), s') := ⟨_, _, rfl⟩
    obtain ⟨results, t, hwritten⟩ := hcalls s' (writes port)
    obtain ⟨hdone, port', u, hagain, hback⟩ :=
      hfile _ _ _ _ _ _ (list [.string ⟨0⟩ "out"]) _ ⟨0⟩ _ _ _ rfl rfl hopen (hwrites port)
        hwritten rfl
    obtain ⟨results', w, hread⟩ := hcalls u (reads port')
    exact ⟨port, s', results, t, port', u, results', w, hopen, hwritten, hdone, hagain, hread,
      hback _ _ _ (hreads port') hread⟩

end TinyLisp
